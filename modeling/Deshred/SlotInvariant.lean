import Deshred.Lib.Runs
import Deshred.FecRecover
import Deshred.Slot

/-!
# What links the sets of a slot to its bits

`Assembling` is what holds at every point of `insert` between the two structures:
a received index has its shred, or the whole of its set was emitted and freed; what
is consumed is a union of complete runs. `SlotInv` adds, for the end of each call,
that every complete run is consumed.
-/

namespace Deshred
open Runs

namespace SlotState

/- The set under a key, empty when there is none. -/
def setAt (state : SlotState) (f : ℕ) : FecSet := (state.sets f).getD FecSet.empty

/- The shred held at a data index. -/
def shredAt (state : SlotState) (i : ℕ) : Option Shred :=
  (state.setAt (i - i % 32)).data ⟨i % 32, Position.mod_lt _⟩

theorem shredAt_add (state : SlotState) {f : ℕ} (hf : f % 32 = 0) (p : Fin 32) :
    state.shredAt (f + p) = (state.setAt f).data p := by
  have hmod : (f + p) % 32 = p := by omega
  have hset : f + p - (f + p) % 32 = f := by omega
  have hfin : (⟨(f + p) % 32, Position.mod_lt _⟩ : Fin 32) = p := Fin.ext hmod
  simp only [shredAt, hfin, hset]

theorem data_of_shredAt {state : SlotState} {i : ℕ} {x : Shred} (h : state.shredAt i = some x) :
    state.data i = .ok x := by
  unfold shredAt setAt at h
  cases hs : state.sets (i - i % 32) with
  | none => simp [hs, FecSet.empty] at h
  | some set =>
    simp only [hs, Option.getD_some] at h
    simp only [data, hs, h]

def SetConsumed (state : SlotState) (f : ℕ) : Prop := ∀ j, f ≤ j → j < f + 32 → j ∈ state.consumed.ones

abbrev Run (state : SlotState) (s e : ℕ) : Prop := IsRun state.received.ones state.complete.ones s e

theorem setIsConsumed_ok (state : SlotState) {f : ℕ} (hf : f ≤ 32736) :
    ∃ b, state.setIsConsumed f = .ok b ∧ (b = true ↔ state.SetConsumed f) := by
  have hle : f + 32 ≤ maxShredsPerSlot := by
    simp only [maxShredsPerSlot]
    omega
  obtain ⟨k, hk⟩ := state.consumed.countOnes_of_le hle
  have hiff := state.consumed.countOnes_eq_width_iff hle
  have hok : state.setIsConsumed f = .ok (decide (k = 32)) := by
    simp only [setIsConsumed, dataShredsPerFecSet, hk]
    rfl
  refine ⟨_, hok, ?_⟩
  rw [hk, Option.some.injEq] at hiff
  rw [decide_eq_true_eq, hiff]
  rfl

/-- The range of a set past the last data shred index does not fit the bit sets. -/
theorem setIsConsumed_panics {state : SlotState} {f : ℕ} (hf : 32736 < f) :
    state.setIsConsumed f = .error .countOnesOutOfRange := by
  have hnone : state.consumed.countOnes f (f + dataShredsPerFecSet) = none := by
    rw [FixedBits.countOnes_eq_none_iff _ (Nat.le_add_right ..)]
    simp only [maxShredsPerSlot, dataShredsPerFecSet]
    omega
  simp only [setIsConsumed, hnone]

/-! ### find_segment -/

theorem findEnd_iff (state : SlotState) (i e : ℕ) : state.findEnd i = some e ↔
    i ≤ e ∧ e ∈ state.complete.ones ∧ (∀ j, i ≤ j → j ≤ e → j ∈ state.received.ones) ∧
      ∀ j, i ≤ j → j < e → j ∉ state.complete.ones := by
  induction i using findEnd.induct state with
  | case1 i hr =>
    rw [findEnd, if_pos hr]
    constructor
    · intro h
      contradiction
    · intro ⟨hle, _, hrec, _⟩
      have hi := (state.received.contains_iff i).mpr (hrec i le_rfl hle)
      rw [hr] at hi
      contradiction
  | case2 i hr hc =>
    rw [findEnd, if_neg hr, if_pos hc]
    have hmem : i ∈ state.complete.ones := (state.complete.contains_iff i).mp hc
    have hrec : i ∈ state.received.ones := (state.received.contains_iff i).mp (by simpa using hr)
    constructor
    · intro h
      obtain rfl : i = e := Option.some.inj h
      refine ⟨le_rfl, hmem, ?_, ?_⟩
      · intro j h1 h2
        obtain rfl : j = i := by omega
        exact hrec
      · intro j h1 h2
        omega
    · intro ⟨hle, _, _, hin⟩
      have he : i = e := by
        by_contra hne
        exact hin i le_rfl (by omega) hmem
      rw [he]
  | case3 i hr hc hmax =>
    rw [findEnd, if_neg hr, if_neg hc, dif_pos hmax]
    constructor
    · intro h
      contradiction
    · intro ⟨hle, he, _, _⟩
      have hbound := state.complete.bounded e he
      have hei : e = i := by omega
      rw [hei] at he
      exact absurd ((state.complete.contains_iff i).mpr he) hc
  | case4 i hr hc hmax ih =>
    rw [findEnd, if_neg hr, if_neg hc, dif_neg hmax, ih]
    have hmem : i ∉ state.complete.ones := fun h => hc ((state.complete.contains_iff i).mpr h)
    have hrec : i ∈ state.received.ones := (state.received.contains_iff i).mp (by simpa using hr)
    constructor
    · intro ⟨hle, he, hall, hin⟩
      refine ⟨by omega, he, ?_, ?_⟩
      · intro j h1 h2
        rcases Nat.eq_or_lt_of_le h1 with rfl | hlt
        · exact hrec
        · exact hall j hlt h2
      · intro j h1 h2
        rcases Nat.eq_or_lt_of_le h1 with rfl | hlt
        · exact hmem
        · exact hin j hlt h2
    · intro ⟨hle, he, hall, hin⟩
      have hne : i ≠ e := fun h => hmem (h ▸ he)
      exact ⟨by omega, he, fun j h1 h2 => hall j (by omega) h2, fun j h1 h2 => hin j (by omega) h2⟩

theorem findStart_iff (state : SlotState) (i s : ℕ) : state.findStart i = some s ↔
    s ≤ i ∧ (s = 0 ∨ s - 1 ∈ state.complete.ones) ∧
      ∀ j, s ≤ j → j < i → j ∈ state.received.ones ∧ j ∉ state.complete.ones := by
  induction i with
  | zero =>
    simp only [findStart, Option.some.injEq]
    constructor
    · intro h
      exact ⟨h.ge, .inl h.symm, fun j h1 h2 => by omega⟩
    · intro ⟨h, _⟩
      omega
  | succ i ih =>
    by_cases hc : state.complete.contains i = true
    · rw [findStart, if_pos hc, Option.some.injEq]
      have hmem := (state.complete.contains_iff i).mp hc
      constructor
      · intro h
        exact ⟨h.ge, .inr (by rw [← h]; exact hmem), fun j h1 h2 => by omega⟩
      · intro ⟨hle, _, hall⟩
        by_contra hne
        exact (hall i (by omega) (by omega)).2 hmem
    · rw [findStart, if_neg hc]
      have hmem : i ∉ state.complete.ones := fun h => hc ((state.complete.contains_iff i).mpr h)
      by_cases hr : state.received.contains i = false
      · rw [if_pos hr]
        have hrec : i ∉ state.received.ones := by
          intro h
          rw [(state.received.contains_iff i).mpr h] at hr
          contradiction
        constructor
        · intro h
          contradiction
        · intro ⟨hle, hs, hall⟩
          exfalso
          by_cases hsi : s = i + 1
          · rcases hs with h0 | hs
            · omega
            · rw [hsi] at hs
              exact hmem hs
          · exact hrec (hall i (by omega) (by omega)).1
      · rw [if_neg hr, ih]
        have hrec := (state.received.contains_iff i).mp (by simpa using hr)
        constructor
        · intro ⟨hle, hs, hall⟩
          refine ⟨by omega, hs, ?_⟩
          intro j h1 h2
          by_cases hj : j = i
          · rw [hj]
            exact ⟨hrec, hmem⟩
          · exact hall j h1 (by omega)
        · intro ⟨hle, hs, hall⟩
          have hsi : s ≠ i + 1 := by
            intro h
            rcases hs with h0 | hs
            · omega
            · rw [h] at hs
              exact hmem hs
          exact ⟨by omega, hs, fun j h1 h2 => hall j h1 (by omega)⟩

theorem findSegment_iff (state : SlotState) (i s e : ℕ) :
    state.findSegment i = some (s, e) ↔ state.Run s e ∧ s ≤ i ∧ i ≤ e := by
  have hboth : state.findSegment i = some (s, e) ↔
      state.findEnd i = some e ∧ state.findStart i = some s := by
    unfold findSegment
    cases state.findEnd i with
    | none => simp
    | some last =>
      cases state.findStart i with
      | none => simp
      | some start =>
        simp only [Option.some.injEq, Prod.mk.injEq]
        exact And.comm
  rw [hboth, findEnd_iff, findStart_iff]
  constructor
  · intro ⟨⟨hle, he, hall, hin⟩, hsi, hs, hback⟩
    refine ⟨⟨by omega, ?_, he, ?_, hs⟩, hsi, hle⟩
    · intro j h1 h2
      rcases Nat.lt_or_ge j i with hj | hj
      · exact (hback j h1 hj).1
      · exact hall j hj h2
    · intro j h1 h2
      rcases Nat.lt_or_ge j i with hj | hj
      · exact (hback j h1 hj).2
      · exact hin j hj h2
  · intro ⟨hrun, hsi, hie⟩
    refine ⟨⟨hie, hrun.closed, ?_, ?_⟩, hsi, hrun.starts, ?_⟩
    · exact fun j h1 h2 => hrun.present j (by omega) h2
    · exact fun j h1 h2 => hrun.inner j (by omega) h2
    · exact fun j h1 h2 => ⟨hrun.present j h1 (by omega), hrun.inner j h1 (by omega)⟩

/-! ### The invariant -/

structure Assembling (state : SlotState) : Prop where
  keyed : ∀ f set, state.sets f = some set → f % 32 = 0 ∧ f ≤ 32736 ∧ FecSet.Inv f set
  shred : ∀ i ∈ state.received.ones, (∃ x, state.shredAt i = some x ∧
    (i ∈ state.complete.ones ↔ x.dataComplete = true)) ∨ state.SetConsumed (i - i % 32)
  complete_received : state.complete.ones ⊆ state.received.ones
  consumed_received : state.consumed.ones ⊆ state.received.ones
  runs : ∀ i ∈ state.consumed.ones, ∃ s e, state.Run s e ∧ s ≤ i ∧ i ≤ e ∧
    ∀ j, s ≤ j → j ≤ e → j ∈ state.consumed.ones

structure SlotInv (state : SlotState) : Prop extends Assembling state where
  emitted : ∀ s e, state.Run s e → s ∈ state.consumed.ones

theorem SlotInv.empty : SlotInv SlotState.empty where
  keyed := by simp [SlotState.empty]
  shred := by simp [SlotState.empty]
  complete_received := by simp [SlotState.empty]
  consumed_received := by simp [SlotState.empty]
  runs := by simp [SlotState.empty]
  emitted s e h := absurd h.closed (by simp [SlotState.empty])

theorem Assembling.setAt_inv {state : SlotState} (hA : Assembling state) (f : ℕ) :
    FecSet.Inv f (state.setAt f) := by
  unfold setAt
  cases h : state.sets f with
  | none => exact FecSet.Inv.empty f
  | some set => exact (hA.keyed f set h).2.2

theorem Assembling.run_unconsumed {state : SlotState} (hA : Assembling state) {s e i j : ℕ}
    (hrun : state.Run s e) (hsi : s ≤ i) (hie : i ≤ e) (hi : i ∉ state.consumed.ones)
    (hsj : s ≤ j) (hje : j ≤ e) : j ∉ state.consumed.ones := by
  intro hj
  obtain ⟨s', e', hrun', h1, h2, hall⟩ := hA.runs j hj
  obtain ⟨rfl, rfl⟩ := hrun.unique hrun' hsj hje h1 h2
  exact hi (hall i hsi hie)

theorem Assembling.shred_of_unconsumed {state : SlotState} (hA : Assembling state) {i : ℕ}
    (hr : i ∈ state.received.ones) (hc : i ∉ state.consumed.ones) :
    ∃ x, state.shredAt i = some x ∧ (i ∈ state.complete.ones ↔ x.dataComplete = true) := by
  rcases hA.shred i hr with h | h
  · exact h
  · exact absurd (h i (by omega) (by omega)) hc

/-! ### try_complete -/

/- The segment made from the shreds held at `s..=e`. -/
def segmentOf (state : SlotState) (s e : ℕ) : Segment where
  shreds := (s, e)
  bytes := (List.range' s (e - s + 1)).flatMap fun i => (state.shredAt i).elim [] Shred.data
  lastInSlot := (state.shredAt e).any Shred.lastInSlot

theorem concatData_ok (state : SlotState) (l : List ℕ) (h : ∀ i ∈ l, (state.shredAt i).isSome) :
    state.concatData l = .ok (l.flatMap fun i => (state.shredAt i).elim [] Shred.data) := by
  induction l with
  | nil => rfl
  | cons i l ih =>
    obtain ⟨x, hx⟩ := Option.isSome_iff_exists.mp (h i (List.mem_cons_self ..))
    have hrest := ih fun j hj => h j (List.mem_cons_of_mem _ hj)
    simp only [concatData, data_of_shredAt hx, hrest, List.flatMap_cons, hx, Option.elim]

/- Freeing: the bits stay, and a set is gone only if all of it was consumed. -/
structure Frees (state state' : SlotState) : Prop where
  received : state'.received = state.received
  complete : state'.complete = state.complete
  consumed : state'.consumed = state.consumed
  sets : ∀ g, state'.sets g = state.sets g ∨ state'.sets g = none ∧ state.SetConsumed g

theorem freeSets_ok (state : SlotState) {l : List ℕ} (h : ∀ f ∈ l, f ≤ 32736) :
    ∃ state', state.freeSets l = .ok state' ∧ Frees state state' := by
  induction l generalizing state with
  | nil => exact ⟨state, rfl, rfl, rfl, rfl, fun g => .inl rfl⟩
  | cons f l ih =>
    have hrest : ∀ g ∈ l, g ≤ 32736 := fun g hg => h g (List.mem_cons_of_mem _ hg)
    obtain ⟨b, hb, hiff⟩ := setIsConsumed_ok state (h f (List.mem_cons_self ..))
    cases b with
    | false =>
      obtain ⟨state', hok, hfree⟩ := ih state hrest
      exact ⟨state', by simp only [freeSets, hb, hok], hfree⟩
    | true =>
      obtain ⟨state', hok, hfree⟩ := ih (state.removeSet f) hrest
      refine ⟨state', by simp only [freeSets, hb, hok], hfree.received, hfree.complete, hfree.consumed, ?_⟩
      intro g
      rcases hfree.sets g with hg | hg
      · by_cases hgf : g = f
        · refine .inr ⟨?_, ?_⟩
          · rw [hg, hgf]
            exact Function.update_self ..
          · rw [hgf]
            exact hiff.mp rfl
        · refine .inl (hg.trans ?_)
          exact Function.update_of_ne hgf ..
      · exact .inr hg

/- `st` is reached from `mid` by emitting the segments `out`. -/
structure Emitting (mid st : SlotState) (out : List Segment) : Prop extends Assembling st where
  received : st.received = mid.received
  complete : st.complete = mid.complete
  sets : ∀ g, st.sets g = mid.sets g ∨ st.sets g = none ∧ st.SetConsumed g
  consumed : ∀ j, j ∈ st.consumed.ones ↔
    j ∈ mid.consumed.ones ∨ ∃ seg ∈ out, seg.shreds.1 ≤ j ∧ j ≤ seg.shreds.2
  segments : ∀ seg ∈ out, mid.Run seg.shreds.1 seg.shreds.2 ∧ seg.shreds.1 ∉ mid.consumed.ones ∧
    seg = mid.segmentOf seg.shreds.1 seg.shreds.2
  nodup : (out.map Segment.shreds).Nodup

theorem Emitting.refl {mid : SlotState} (hA : Assembling mid) : Emitting mid mid [] where
  toAssembling := hA
  received := rfl
  complete := rfl
  sets _ := .inl rfl
  consumed := by simp
  segments := by simp
  nodup := by simp

theorem Emitting.shredAt_eq {mid st : SlotState} {out : List Segment} (h : Emitting mid st out) {i : ℕ}
    (hi : i ∉ st.consumed.ones) : st.shredAt i = mid.shredAt i := by
  rcases h.sets (i - i % 32) with hg | hg
  · simp only [shredAt, setAt, hg]
  · exact absurd (hg.2 i (by omega) (by omega)) hi

theorem emit_ok {state : SlotState} (hA : Assembling state) {s e i : ℕ} (hrun : state.Run s e)
    (hsi : s ≤ i) (hie : i ≤ e) (hi : i ∉ state.consumed.ones) :
    ∃ state', state.emit s e = .ok (state', [state.segmentOf s e]) ∧ Assembling state' ∧
      state'.received = state.received ∧ state'.complete = state.complete ∧
      state'.consumed.ones = state.consumed.ones ∪ Finset.Icc s e ∧
      ∀ g, state'.sets g = state.sets g ∨ state'.sets g = none ∧ state'.SetConsumed g := by
  have hfree : ∀ j, s ≤ j → j ≤ e → j ∉ state.consumed.ones :=
    fun j h1 h2 => hA.run_unconsumed hrun hsi hie hi h1 h2
  have hheld : ∀ j, s ≤ j → j ≤ e → (state.shredAt j).isSome := by
    intro j h1 h2
    obtain ⟨x, hx, _⟩ := hA.shred_of_unconsumed (hrun.present j h1 h2) (hfree j h1 h2)
    simp [hx]
  have hconcat := concatData_ok state (List.range' s (e - s + 1)) (by
    intro j hj
    have hj := List.mem_range'_1.mp hj
    exact hheld j hj.1 (by omega))
  obtain ⟨lastShred, hlast⟩ := Option.isSome_iff_exists.mp (hheld e hrun.le le_rfl)
  have hbound : e < 32768 := state.complete.bounded e hrun.closed
  obtain ⟨consumed, hins, hones⟩ := state.consumed.insertRange_of_le (show s ≤ e + 1 by omega)
    (show e + 1 ≤ maxShredsPerSlot by simp only [maxShredsPerSlot]; omega)
  have hIcc : Finset.Ico s (e + 1) = Finset.Icc s e := by
    ext j
    simp only [Finset.mem_Ico, Finset.mem_Icc]
    omega
  rw [hIcc] at hones
  let marked : SlotState := { state with consumed := consumed }
  let firstSet := s - s % dataShredsPerFecSet
  have hkeys : ∀ f ∈ List.range' firstSet ((e - firstSet) / dataShredsPerFecSet + 1) dataShredsPerFecSet,
      f ≤ 32736 := by
    intro f hf
    obtain ⟨k, hk, rfl⟩ := List.mem_range'.mp hf
    simp only [firstSet, dataShredsPerFecSet] at hk ⊢
    omega
  obtain ⟨state', hok, hfrees⟩ := freeSets_ok marked hkeys
  have hset : ∀ g, marked.SetConsumed g ↔ state'.SetConsumed g := by
    intro g
    simp only [SetConsumed, hfrees.consumed]
  have hmono : ∀ g, state.SetConsumed g → state'.SetConsumed g := by
    intro g hg
    refine (hset g).mp fun j h1 h2 => ?_
    show j ∈ consumed.ones
    rw [hones]
    exact Finset.mem_union_left _ (hg j h1 h2)
  have hcons : state'.consumed.ones = state.consumed.ones ∪ Finset.Icc s e := by
    rw [hfrees.consumed]
    exact hones
  have hrec : state'.received = state.received := hfrees.received
  have hcomp : state'.complete = state.complete := hfrees.complete
  refine ⟨state', ?_, ⟨?_, ?_, ?_, ?_, ?_⟩, hrec, hcomp, hcons, ?_⟩
  · simp only [emit, hconcat, data_of_shredAt hlast, hins]
    simp only [marked, firstSet] at hok
    simp only [hok, segmentOf, hlast, Option.any_some]
  · intro f set hf
    rcases hfrees.sets f with hg | hg
    · exact hA.keyed f set (hg.symm.trans hf)
    · rw [hg.1] at hf
      contradiction
  · intro j hj
    rw [hrec] at hj
    rcases hfrees.sets (j - j % 32) with hg | hg
    · have hsame : state'.shredAt j = state.shredAt j := by
        simp only [shredAt, setAt, hg]
        rfl
      rcases hA.shred j hj with hx | hx
      · rw [hsame, hcomp]
        exact .inl hx
      · exact .inr (hmono _ hx)
    · exact .inr ((hset _).mp hg.2)
  · rw [hcomp, hrec]
    exact hA.complete_received
  · rw [hcons, hrec]
    intro j hj
    rcases Finset.mem_union.mp hj with hj | hj
    · exact hA.consumed_received hj
    · have hj := Finset.mem_Icc.mp hj
      exact hrun.present j hj.1 hj.2
  · intro j hj
    simp only [Run, hrec, hcomp, hcons]
    rw [hcons] at hj
    rcases Finset.mem_union.mp hj with hj | hj
    · obtain ⟨s', e', hr', h1, h2, hall⟩ := hA.runs j hj
      exact ⟨s', e', hr', h1, h2, fun k h3 h4 => Finset.mem_union_left _ (hall k h3 h4)⟩
    · have hj := Finset.mem_Icc.mp hj
      exact ⟨s, e, hrun, hj.1, hj.2, fun k h3 h4 => Finset.mem_union_right _ (Finset.mem_Icc.mpr ⟨h3, h4⟩)⟩
  · intro g
    rcases hfrees.sets g with hg | hg
    · exact .inl hg
    · exact .inr ⟨hg.1, (hset g).mp hg.2⟩

/-- After `tryComplete i`, a run that contains `i` is consumed; what came out is one
more segment, or nothing. -/
theorem Emitting.tryComplete {mid st : SlotState} {out : List Segment} (h : Emitting mid st out) (i : ℕ) :
    ∃ st' out', st.tryComplete i = .ok (st', out') ∧ Emitting mid st' (out ++ out') ∧
      ∀ s e, mid.Run s e → s ≤ i → i ≤ e → i ∈ st'.consumed.ones := by
  have hR : ∀ s e, st.Run s e ↔ mid.Run s e := by
    intro s e
    simp only [Run, h.received, h.complete]
  unfold SlotState.tryComplete
  split
  · rename_i hskip
    refine ⟨st, [], rfl, by rwa [List.append_nil], ?_⟩
    intro s e hrun hsi hie
    rcases hskip with hmax | hc
    · have hbound := mid.received.bounded i (hrun.present i hsi hie)
      omega
    · exact (st.consumed.contains_iff i).mp hc
  · rename_i hskip
    have hi : i ∉ st.consumed.ones := fun hc => hskip (.inr ((st.consumed.contains_iff i).mpr hc))
    cases hf : st.findSegment i with
    | none =>
      refine ⟨st, [], rfl, by rwa [List.append_nil], ?_⟩
      intro s e hrun hsi hie
      have hsome := (st.findSegment_iff i s e).mpr ⟨(hR s e).mpr hrun, hsi, hie⟩
      rw [hf] at hsome
      contradiction
    | some se =>
      obtain ⟨s, e⟩ := se
      obtain ⟨hrun, hsi, hie⟩ := (st.findSegment_iff i s e).mp hf
      obtain ⟨st', hok, hA, hrec, hcomp, hcons, hsets⟩ := emit_ok h.toAssembling hrun hsi hie hi
      have hfree : ∀ j, s ≤ j → j ≤ e → j ∉ st.consumed.ones :=
        fun j h1 h2 => h.run_unconsumed hrun hsi hie hi h1 h2
      have hsame : ∀ j, s ≤ j → j ≤ e → st.shredAt j = mid.shredAt j :=
        fun j h1 h2 => h.shredAt_eq (hfree j h1 h2)
      have hseg : st.segmentOf s e = mid.segmentOf s e := by
        simp only [segmentOf, hsame e hrun.le le_rfl]
        congr 1
        apply List.flatMap_congr
        intro j hj
        have hj := List.mem_range'_1.mp hj
        have hle := hrun.le
        rw [hsame j hj.1 (by omega)]
      have hstart : s ∉ mid.consumed.ones := by
        intro hc
        exact hfree s le_rfl hrun.le ((h.consumed s).mpr (.inl hc))
      rw [hseg] at hok
      refine ⟨st', [mid.segmentOf s e], hok, ⟨hA, hrec.trans h.received, hcomp.trans h.complete, ?_, ?_, ?_, ?_⟩, ?_⟩
      · intro g
        rcases hsets g with hg | hg
        · rcases h.sets g with hg' | hg'
          · exact .inl (hg.trans hg')
          · refine .inr ⟨hg.trans hg'.1, fun j h1 h2 => ?_⟩
            rw [hcons]
            exact Finset.mem_union_left _ (hg'.2 j h1 h2)
        · exact .inr hg
      · intro j
        rw [hcons, Finset.mem_union, h.consumed, Finset.mem_Icc]
        simp only [List.mem_append, List.mem_singleton, segmentOf]
        constructor
        · intro h
          rcases h with (hj | ⟨seg, hseg, hj⟩) | hj
          · exact .inl hj
          · exact .inr ⟨seg, .inl hseg, hj⟩
          · exact .inr ⟨_, .inr rfl, hj⟩
        · intro h
          rcases h with hj | ⟨seg, hseg | rfl, hj⟩
          · exact .inl (.inl hj)
          · exact .inl (.inr ⟨seg, hseg, hj⟩)
          · exact .inr hj
      · intro seg hmem
        rcases List.mem_append.mp hmem with hmem | hmem
        · exact h.segments seg hmem
        · obtain rfl := List.mem_singleton.mp hmem
          exact ⟨(hR s e).mp hrun, hstart, rfl⟩
      · rw [List.map_append, List.nodup_append]
        refine ⟨h.nodup, by simp, ?_⟩
        intro a ha b hb hab
        obtain ⟨seg, hmem, rfl⟩ := List.mem_map.mp ha
        simp only [List.map_cons, List.map_nil, List.mem_singleton, segmentOf] at hb
        -- an equal segment would have been consumed already
        have hin : s ∈ st.consumed.ones := by
          refine (h.consumed s).mpr (.inr ⟨seg, hmem, ?_⟩)
          rw [hab, hb]
          exact ⟨le_rfl, hrun.le⟩
        exact hfree s le_rfl hrun.le hin
      · intro s' e' hrun' h1 h2
        rw [hcons]
        exact Finset.mem_union_right _ (Finset.mem_Icc.mpr ⟨hsi, hie⟩)

theorem Emitting.consumed_mono {mid st st' : SlotState} {out out' : List Segment}
    (h : Emitting mid st out) (h' : Emitting mid st' (out ++ out')) {j : ℕ}
    (hj : j ∈ st.consumed.ones) : j ∈ st'.consumed.ones := by
  rw [h'.consumed]
  rcases (h.consumed j).mp hj with hj | ⟨seg, hseg, hj⟩
  · exact .inl hj
  · exact .inr ⟨seg, List.mem_append_left _ hseg, hj⟩

/- The places that the last loop of `insert` looks at for a fresh index `i`. -/
def Touched (mid st : SlotState) (i : ℕ) : Prop :=
  (∀ s e, mid.Run s e → s ≤ i → i ≤ e → i ∈ st.consumed.ones) ∧
    (i ∈ mid.complete.ones → ∀ s e, mid.Run s e → s = i + 1 → s ∈ st.consumed.ones)

theorem Emitting.completeAt {mid st : SlotState} {out : List Segment} (h : Emitting mid st out) (i : ℕ) :
    ∃ st' out', st.completeAt i = .ok (st', out') ∧ Emitting mid st' (out ++ out') ∧ Touched mid st' i := by
  obtain ⟨st₁, out₁, hok₁, h₁, hdone₁⟩ := h.tryComplete i
  unfold SlotState.completeAt
  simp only [hok₁]
  by_cases hc : st₁.complete.contains i = true
  · obtain ⟨st₂, out₂, hok₂, h₂, hdone₂⟩ := h₁.tryComplete (i + 1)
    refine ⟨st₂, out₁ ++ out₂, by simp only [hc, ↓reduceIte, hok₂], by rwa [← List.append_assoc], ?_, ?_⟩
    · exact fun s e hrun h1 h2 => h₁.consumed_mono h₂ (hdone₁ s e hrun h1 h2)
    · intro _ s e hrun hs
      have hle := hrun.le
      rw [hs]
      exact hdone₂ s e hrun hs.le (by omega)
  · refine ⟨st₁, out₁, by simp only [hc, ↓reduceIte, Bool.false_eq_true], h₁, hdone₁, ?_⟩
    intro hmem
    rw [← h₁.complete] at hmem
    exact absurd ((st₁.complete.contains_iff i).mpr hmem) hc

theorem Emitting.completeAll {mid st : SlotState} {out : List Segment} (h : Emitting mid st out)
    (fresh : List ℕ) : ∃ st' out', Steps.runAll SlotState.completeAt st fresh = .ok (st', out') ∧
      Emitting mid st' (out ++ out') ∧ ∀ i ∈ fresh, Touched mid st' i := by
  induction fresh generalizing st out with
  | nil => exact ⟨st, [], rfl, by rwa [List.append_nil], by simp⟩
  | cons i fresh ih =>
    obtain ⟨st₁, out₁, hok₁, h₁, hdone₁⟩ := h.completeAt i
    obtain ⟨st₂, out₂, hok₂, h₂, hdone₂⟩ := ih h₁
    refine ⟨st₂, out₁ ++ out₂, Steps.runAll_cons_ok.mpr ⟨st₁, out₁, out₂, hok₁, hok₂, rfl⟩,
      by rwa [← List.append_assoc], ?_⟩
    intro j hj
    rcases List.mem_cons.mp hj with rfl | hj
    · refine ⟨fun s e hrun h1 h2 => h₁.consumed_mono h₂ (hdone₁.1 s e hrun h1 h2), ?_⟩
      exact fun hc s e hrun hs => h₁.consumed_mono h₂ (hdone₁.2 hc s e hrun hs)
    · exact hdone₂ j hj

end SlotState
end Deshred
