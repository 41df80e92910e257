import Deshred.SlotInvariant

/-!
# One call of `SlotState::insert`

Under the invariant a call never panics, as long as the set index of the shred is
one that a data shred can have. `Stored` lists the ways its first half ends, and
`Inserted` is what the whole call does.
-/

namespace Deshred
open Runs

namespace SlotState

/-- The ways the recovery in `insert` ends. -/
inductive Recovering (f : ℕ) (set : FecSet) (rs : Option ReedSolomon) : FecSet → List ℕ → Prop where
  | idle (h : ∀ r, rs = some r → set.canRecover = false) : Recovering f set rs set []
  | failed (r : ReedSolomon) (set' : FecSet) (e : RecoverError) (hrs : rs = some r)
      (hc : set.canRecover = true) (hok : set.recover r = .ok (set', .error e))
      (h : FecSet.Recovered f set set' (.error e)) : Recovering f set rs set' []
  | complete (r : ReedSolomon) (set' : FecSet) (indexes : List ℕ) (hrs : rs = some r)
      (hc : set.canRecover = true) (hok : set.recover r = .ok (set', .ok indexes))
      (h : FecSet.Recovered f set set' (.ok indexes)) : Recovering f set rs set' indexes

theorem Recovering.of_idle {f : ℕ} {set set' : FecSet} {rs : Option ReedSolomon} {indexes : List ℕ}
    (h : Recovering f set rs set' indexes) (hno : ∀ r, rs = some r → set.canRecover = false) :
    set' = set ∧ indexes = [] := by
  cases h with
  | idle _ => exact ⟨rfl, rfl⟩
  | failed r set' e hrs hc _ _ =>
    rw [hno r hrs] at hc
    contradiction
  | complete r set' indexes hrs hc _ _ =>
    rw [hno r hrs] at hc
    contradiction

/-- A recovery that runs ends as `recover` does. -/
theorem Recovering.of_recover {f : ℕ} {set set' after : FecSet} {rs : Option ReedSolomon} {indexes : List ℕ}
    {r : ReedSolomon} {res : Except RecoverError (List ℕ)} (h : Recovering f set rs set' indexes) (hrs : rs = some r)
    (hc : set.canRecover = true) (hok : set.recover r = .ok (after, res)) :
    set' = after ∧ FecSet.Recovered f set set' res ∧ ((∃ e, res = .error e) ∧ indexes = [] ∨ res = .ok indexes) := by
  cases h with
  | idle hidle =>
    rw [hidle r hrs] at hc
    contradiction
  | failed r' set' e hrs' _ hok' hrec =>
    obtain rfl : r = r' := Option.some.inj (hrs.symm.trans hrs')
    rw [hok, Except.ok.injEq, Prod.mk.injEq] at hok'
    obtain ⟨rfl, rfl⟩ := hok'
    exact ⟨rfl, hrec, .inl ⟨⟨e, rfl⟩, rfl⟩⟩
  | complete r' set' indexes hrs' _ hok' hrec =>
    obtain rfl : r = r' := Option.some.inj (hrs.symm.trans hrs')
    rw [hok, Except.ok.injEq, Prod.mk.injEq] at hok'
    obtain ⟨rfl, rfl⟩ := hok'
    exact ⟨rfl, hrec, .inr rfl⟩

theorem recoverSet_cases {f : ℕ} {set : FecSet} (hI : FecSet.Inv f set) (rs : Option ReedSolomon)
    (stats : Stats) : ∃ set' stats' indexes, recoverSet set rs stats = .ok (set', stats', indexes) ∧
      Recovering f set rs set' indexes := by
  cases rs with
  | none => exact ⟨set, stats, [], rfl, .idle (by simp)⟩
  | some r =>
    cases hc : set.canRecover with
    | false => exact ⟨set, stats, [], by simp [recoverSet, hc], .idle (by simp [hc])⟩
    | true =>
      obtain ⟨set', res, hok, hrec⟩ := FecSet.recover_cases hI hc r
      cases res with
      | error e =>
        refine ⟨set', { stats with recoveryFailures := stats.recoveryFailures + 1 }, [], ?_,
          .failed r set' e rfl hc hok hrec⟩
        simp only [recoverSet, hc, ↓reduceIte, hok]
      | ok indexes =>
        refine ⟨set', { stats with recovered := stats.recovered + UInt64.ofNat indexes.length },
          indexes, ?_, .complete r set' indexes rfl hc hok hrec⟩
        simp only [recoverSet, hc, ↓reduceIte, hok]

variable {f : ℕ} {set set' : FecSet} {rs : Option ReedSolomon} {indexes fresh : List ℕ}
  {state state' : SlotState} {x : Shred} {root : Hash32}

theorem Recovering.inv (h : Recovering f set rs set' indexes) (hI : FecSet.Inv f set) : FecSet.Inv f set' := by
  cases h with
  | idle _ => exact hI
  | failed r set' e _ _ _ h => exact h.inv hI
  | complete r set' indexes _ _ _ h => exact h.inv hI

theorem Recovering.keeps (h : Recovering f set rs set' indexes) {p : Fin 32} {x : Shred}
    (hx : set.data p = some x) : set'.data p = some x := by
  cases h with
  | idle _ => exact hx
  | failed r set' e _ _ _ h => exact h.keeps hx
  | complete r set' indexes _ _ _ h => exact h.keeps hx

theorem Recovering.root_signature (h : Recovering f set rs set' indexes) :
    set'.root = set.root ∧ set'.signature = set.signature := by
  cases h with
  | idle _ => exact ⟨rfl, rfl⟩
  | failed r set' e _ _ _ h => exact h.root_signature
  | complete r set' indexes _ _ _ h => exact h.root_signature

theorem Recovering.mem_indexes (h : Recovering f set rs set' indexes) :
    ∀ i ∈ indexes, ∃ p : Fin 32, i = f + p ∧ set.data p = none ∧ (set'.data p).isSome := by
  intro i hi
  cases h with
  | idle _ => contradiction
  | failed r set' e _ _ _ h => contradiction
  | complete r set' indexes _ _ _ h =>
    rw [h.ok.1] at hi
    obtain ⟨p, hp, rfl⟩ := List.mem_map.mp hi
    exact ⟨p, rfl, FecSet.mem_missing.mp hp, h.ok.2.1 p⟩

theorem Recovering.nodup (h : Recovering f set rs set' indexes) : indexes.Nodup := by
  cases h with
  | idle _ => exact List.nodup_nil
  | failed r set' e _ _ _ h => exact List.nodup_nil
  | complete r set' indexes _ _ _ h =>
    rw [h.ok.1]
    apply set.missing_nodup.map
    intro p q hpq
    exact Fin.ext (by simpa using hpq)

theorem Recovering.length_le (h : Recovering f set rs set' indexes) (hI : FecSet.Inv f set) :
    indexes.length + set.numData ≤ 32 := by
  have hm := hI.toPlaced.missing_length
  cases h with
  | idle _ =>
    simp only [List.length_nil]
    omega
  | failed r set' e _ _ _ h =>
    simp only [List.length_nil]
    omega
  | complete r set' indexes _ _ _ h =>
    rw [h.ok.1, List.length_map]
    omega

/-! ### The bits of the fresh indexes -/

theorem markFresh_ok (set : FecSet) (f : ℕ) (fresh : List ℕ) (state : SlotState)
    (h : ∀ i ∈ fresh, i < 32768 ∧ ∃ p : Fin 32, i = f + p ∧ (set.data p).isSome) :
    ∃ state', markFresh set f fresh state = .ok state' ∧ state'.sets = state.sets ∧
      state'.consumed = state.consumed ∧
      (∀ i, i ∈ state'.received.ones ↔ i ∈ state.received.ones ∨ i ∈ fresh) ∧
      ∀ i, i ∈ state'.complete.ones ↔ i ∈ state.complete.ones ∨
        i ∈ fresh ∧ ∃ (p : Fin 32) (y : Shred), i = f + p ∧ set.data p = some y ∧ y.dataComplete = true := by
  induction fresh generalizing state with
  | nil => exact ⟨state, rfl, rfl, rfl, by simp, by simp⟩
  | cons i fresh ih =>
    have hrest : ∀ j ∈ fresh, j < 32768 ∧ ∃ p : Fin 32, j = f + p ∧ (set.data p).isSome :=
      fun j hj => h j (List.mem_cons_of_mem _ hj)
    obtain ⟨hlt, p, hp, hsome⟩ := h i (List.mem_cons_self ..)
    obtain ⟨y, hy⟩ := Option.isSome_iff_exists.mp hsome
    have hplt := p.isLt
    have hpin : f ≤ i ∧ i - f < 32 := by omega
    have hpfin : (⟨i - f, hpin.2⟩ : Fin 32) = p := Fin.ext (by simp only; omega)
    have hshred : freshShred set f i = .ok y := by
      rw [freshShred, dif_pos hpin, hpfin, hy]
    obtain ⟨received, hins, hrec⟩ := state.received.insert_of_lt (i := i) hlt
    -- the only shred of the set at index `i` is `y`
    have hpy : (∃ (q : Fin 32) (z : Shred), i = f + q ∧ set.data q = some z ∧ z.dataComplete = true) ↔
        y.dataComplete = true := by
      constructor
      · intro ⟨q, z, hq, hz, hdc⟩
        have hqp : q = p := Fin.ext (by omega)
        rw [hqp, hy, Option.some.injEq] at hz
        rw [hz]
        exact hdc
      · exact fun hdc => ⟨p, y, hp, hy, hdc⟩
    cases hdc : y.dataComplete with
    | true =>
      obtain ⟨complete, hinsc, hcomp⟩ := state.complete.insert_of_lt (i := i) hlt
      obtain ⟨state', hok, hsets, hcons, hr, hc⟩ :=
        ih { state with received := received, complete := complete } hrest
      refine ⟨state', by simp only [markFresh, hshred, hins, hdc, ↓reduceIte, hinsc, hok], hsets, hcons, ?_, ?_⟩
      · intro j
        rw [hr, hrec, Finset.mem_insert, List.mem_cons]
        exact or_assoc.trans or_left_comm
      · intro j
        rw [hc, hcomp, Finset.mem_insert, List.mem_cons]
        constructor
        · intro h
          rcases h with (rfl | hj) | hj
          · exact .inr ⟨.inl rfl, hpy.mpr hdc⟩
          · exact .inl hj
          · exact .inr ⟨.inr hj.1, hj.2⟩
        · intro h
          rcases h with hj | ⟨rfl | hj, hy'⟩
          · exact .inl (.inr hj)
          · exact .inl (.inl rfl)
          · exact .inr ⟨hj, hy'⟩
    | false =>
      obtain ⟨state', hok, hsets, hcons, hr, hc⟩ := ih { state with received := received } hrest
      refine ⟨state', by simp only [markFresh, hshred, hins, hdc, Bool.false_eq_true, ↓reduceIte, hok],
        hsets, hcons, ?_, ?_⟩
      · intro j
        rw [hr, hrec, Finset.mem_insert, List.mem_cons]
        exact or_assoc.trans or_left_comm
      · intro j
        rw [hc, List.mem_cons]
        constructor
        · intro h
          rcases h with hj | hj
          · exact .inl hj
          · exact .inr ⟨.inr hj.1, hj.2⟩
        · intro h
          rcases h with hj | ⟨rfl | hj, hy'⟩
          · exact .inl hj
          · rw [hpy, hdc] at hy'
            contradiction
          · exact .inr ⟨hj, hy'⟩

/-! ### store -/

theorem putSet_setAt (state : SlotState) (f g : ℕ) :
    (state.putSet f (state.setAt f)).setAt g = state.setAt g := by
  simp only [putSet, setAt]
  by_cases h : g = f
  · rw [h, Function.update_self, Option.getD_some]
  · rw [Function.update_of_ne h]

/- What storing does to the bits. -/
structure Marks (state state' : SlotState) (fresh : List ℕ) : Prop where
  received : ∀ i, i ∈ state'.received.ones ↔ i ∈ state.received.ones ∨ i ∈ fresh
  unseen : ∀ i ∈ fresh, i ∉ state.received.ones
  complete_mono : state.complete.ones ⊆ state'.complete.ones
  complete_new : ∀ i ∈ state'.complete.ones, i ∈ state.complete.ones ∨ i ∈ fresh
  complete_old : ∀ i ∈ state'.complete.ones, i ∈ state.received.ones → i ∈ state.complete.ones
  consumed : state'.consumed = state.consumed
  nodup : fresh.Nodup

theorem Marks.run_mono (h : Marks state state' fresh) {s e : ℕ} (hrun : state.Run s e) : state'.Run s e :=
  hrun.mono (fun i hi => (h.received i).mpr (.inl hi)) h.complete_mono h.complete_old

theorem kind_code_of_not_data {x : Shred} (h : ¬ x.isData = true) : x.kind = .code := by
  cases hk : x.kind with
  | data => exact absurd (x.isData_iff.mpr hk) h
  | code => rfl

theorem not_consumed_of_unseen {state : SlotState} (hA : Assembling state) {x : Shred}
    (hk : x.kind = .data) (h : x.index ∉ state.received.ones) : ¬ state.SetConsumed x.fecSetIndex := by
  intro hc
  obtain ⟨p, hp⟩ := x.exists_position_data hk
  have hpos := x.position_data hp
  exact h (hA.consumed_received (hc x.index (by omega) (by omega)))

theorem Marks.out_iff (hI : SlotInv state) (h : Marks state state' fresh) {st : SlotState} {out : List Segment}
    (hE : Emitting state' st out) (htouched : ∀ i ∈ fresh, Touched state' st i) (s e : ℕ) :
    (s, e) ∈ out.map Segment.shreds ↔ state'.Run s e ∧ ¬ state.Run s e := by
  constructor
  · intro hmem
    obtain ⟨seg, hseg, heq⟩ := List.mem_map.mp hmem
    obtain ⟨hrun, hstart, _⟩ := hE.segments seg hseg
    rw [heq] at hrun hstart
    refine ⟨hrun, fun hold => hstart ?_⟩
    rw [h.consumed]
    exact hI.emitted s e hold
  · intro ⟨hrun, hnew⟩
    -- a consumed index of a run that was not there before comes from this call
    have hlisted : ∀ i, s ≤ i → i ≤ e → i ∈ st.consumed.ones → (s, e) ∈ out.map Segment.shreds := by
      intro i h1 h2 hi
      rcases (hE.consumed i).mp hi with hi | ⟨seg, hseg, h3, h4⟩
      · rw [h.consumed] at hi
        obtain ⟨s', e', hold, h3, h4, _⟩ := hI.runs i hi
        obtain ⟨rfl, rfl⟩ := hrun.unique (h.run_mono hold) h1 h2 h3 h4
        exact absurd hold hnew
      · obtain ⟨hrun', _, _⟩ := hE.segments seg hseg
        obtain ⟨h5, h6⟩ := hrun.unique hrun' h1 h2 h3 h4
        exact List.mem_map.mpr ⟨seg, hseg, Prod.ext h5.symm h6.symm⟩
    rcases hrun.old_or_touched (F := fresh.toFinset) (R := state.received.ones) (C := state.complete.ones)
      (by simpa using fun i hi => (h.received i).mp hi) (by simpa using h.complete_new) h.complete_mono with
      hold | ⟨i, hi, h1, h2⟩ | ⟨i, hi, hc, hs⟩
    · exact absurd hold hnew
    · exact hlisted i h1 h2 ((htouched i (List.mem_toFinset.mp hi)).1 s e hrun h1 h2)
    · exact hlisted s le_rfl hrun.le ((htouched i (List.mem_toFinset.mp hi)).2 hc s e hrun hs)

section
variable [Hasher]

/-- A shred that its FEC set took in. -/
structure Taken (state : SlotState) (x : Shred) (rs : Option ReedSolomon) (state' : SlotState)
    (fresh : List ℕ) (root : Hash32) (set' : FecSet) (indexes : List ℕ) : Prop where
  live : ¬ state.SetConsumed x.fecSetIndex
  unseen : x.kind = .data → x.index ∉ state.received.ones
  accepts : FecSet.Accepts (state.setAt x.fecSetIndex) x root
  recovering : Recovering x.fecSetIndex ((state.setAt x.fecSetIndex).accepted x root) rs set' indexes
  fresh_eq : fresh = (if x.isData then [x.index] else []) ++ indexes
  sets : state'.sets = Function.update state.sets x.fecSetIndex (some set')
  received : ∀ i, i ∈ state'.received.ones ↔ i ∈ state.received.ones ∨ i ∈ fresh
  complete : ∀ i, i ∈ state'.complete.ones ↔ i ∈ state.complete.ones ∨ i ∈ fresh ∧
    ∃ (p : Fin 32) (y : Shred), i = x.fecSetIndex + p ∧ set'.data p = some y ∧ y.dataComplete = true
  consumed : state'.consumed = state.consumed

/-- The ways the first half of `insert` ends. -/
inductive Stored (state : SlotState) (x : Shred) (rs : Option ReedSolomon) : SlotState → List ℕ → Prop where
  | dropped (h : x.kind = .data ∧ x.index ∈ state.received.ones ∨
      x.kind = .code ∧ state.SetConsumed x.fecSetIndex) : Stored state x rs state []
  | turnedAway (why : Insert) (hwhy : why ≠ .new)
      (hseen : x.kind = .data → x.index ∉ state.received.ones)
      (hlive : x.kind = .code → ¬ state.SetConsumed x.fecSetIndex)
      (h : (state.setAt x.fecSetIndex).insert x = (state.setAt x.fecSetIndex, why)) :
      Stored state x rs (state.putSet x.fecSetIndex (state.setAt x.fecSetIndex)) []
  | taken (state' : SlotState) (fresh : List ℕ) (root : Hash32) (set' : FecSet) (indexes : List ℕ)
      (h : Taken state x rs state' fresh root set' indexes) : Stored state x rs state' fresh

theorem storeInSet_cases {state : SlotState} (hA : Assembling state) {x : Shred} (hx : x.fecSetIndex ≤ 32736)
    (rs : Option ReedSolomon) (stats : Stats)
    (hseen : x.kind = .data → x.index ∉ state.received.ones)
    (hlive : x.kind = .code → ¬ state.SetConsumed x.fecSetIndex) :
    ∃ state' stats' fresh, state.storeInSet x rs stats = .ok (state', stats', fresh) ∧
      Stored state x rs state' fresh := by
  have hset : (state.sets x.fecSetIndex).getD FecSet.empty = state.setAt x.fecSetIndex := rfl
  obtain ⟨root, hacc, hins⟩ | ⟨why, hne, hins, _⟩ := (state.setAt x.fecSetIndex).insert_cases x
  · have hI := hA.setAt_inv x.fecSetIndex
    have hI' := hI.accepted rfl hacc
    obtain ⟨set', stats', indexes, hrec, hstep⟩ := recoverSet_cases hI' rs stats
    have hnotc : ¬ state.SetConsumed x.fecSetIndex := by
      cases hk : x.kind with
      | data => exact not_consumed_of_unseen hA hk (hseen hk)
      | code => exact hlive hk
    let fresh := (if x.isData then [x.index] else []) ++ indexes
    have hdata : ∀ i ∈ (if x.isData then [x.index] else []), ∃ p : Fin 32, x.position = .data p ∧
        i = x.fecSetIndex + p := by
      intro i hi
      split at hi
      · rename_i hd
        obtain rfl := List.mem_singleton.mp hi
        obtain ⟨p, hp⟩ := x.exists_position_data (x.isData_iff.mp hd)
        exact ⟨p, hp, (x.position_data hp).2.1⟩
      · contradiction
    have hfresh : ∀ i ∈ fresh, i < 32768 ∧ ∃ p : Fin 32, i = x.fecSetIndex + p ∧ (set'.data p).isSome := by
      intro i hi
      rcases List.mem_append.mp hi with hi | hi
      · obtain ⟨p, hp, heq⟩ := hdata i hi
        have hplt := p.isLt
        have hd : ((state.setAt x.fecSetIndex).accepted x root).data p = some x := by
          rw [FecSet.accepted_data _ x root hp, Function.update_self]
        exact ⟨by omega, p, heq, by simp [hstep.keeps hd]⟩
      · obtain ⟨p, heq, _, hsome⟩ := hstep.mem_indexes i hi
        have hplt := p.isLt
        exact ⟨by omega, p, heq, hsome⟩
    have hlen : ¬ dataShredsPerFecSet < fresh.length := by
      have hle := hstep.length_le hI'
      simp only [fresh, List.length_append, dataShredsPerFecSet]
      split
      · rename_i hd
        obtain ⟨p, hp⟩ := x.exists_position_data (x.isData_iff.mp hd)
        have hpos : 0 < ((state.setAt x.fecSetIndex).accepted x root).numData := by
          rw [hI'.num_data, occupied, Finset.card_pos]
          exact ⟨p, by simp [FecSet.accepted_data _ x root hp]⟩
        simp only [List.length_singleton]
        omega
      · simp only [List.length_nil]
        omega
    obtain ⟨state', hmark, hsets, hcons, hr, hc⟩ := markFresh_ok set' x.fecSetIndex fresh
      (state.putSet x.fecSetIndex set') hfresh
    refine ⟨state', stats', fresh, ?_, .taken state' fresh root set' indexes
      ⟨hnotc, hseen, hacc, hstep, rfl, hsets, hr, hc, hcons⟩⟩
    simp only [storeInSet, hset, hins, hrec]
    rw [if_neg hlen, hmark]
  · let kept := state.putSet x.fecSetIndex (state.setAt x.fecSetIndex)
    have hst : Stored state x rs kept [] := .turnedAway why hne hseen hlive hins
    refine ⟨kept, ?_⟩
    cases why with
    | new => contradiction
    | duplicate =>
      have hok : state.storeInSet x rs stats = .ok (kept, { stats with duplicates := stats.duplicates + 1 }, []) := by
        simp only [storeInSet, hset, hins, kept]
      exact ⟨_, [], hok, hst⟩
    | unneeded =>
      have hok : state.storeInSet x rs stats = .ok (kept, { stats with unneeded := stats.unneeded + 1 }, []) := by
        simp only [storeInSet, hset, hins, kept]
      exact ⟨_, [], hok, hst⟩
    | rejected why =>
      have hok : state.storeInSet x rs stats = .ok (kept, { stats with rejected := stats.rejected + 1 }, []) := by
        simp only [storeInSet, hset, hins, kept]
      exact ⟨_, [], hok, hst⟩

theorem store_cases {state : SlotState} (hA : Assembling state) {x : Shred} (hx : x.fecSetIndex ≤ 32736)
    (rs : Option ReedSolomon) (stats : Stats) :
    ∃ state' stats' fresh, state.store x rs stats = .ok (state', stats', fresh) ∧
      Stored state x rs state' fresh := by
  unfold store
  split
  · rename_i h
    have hrec := (state.received.contains_iff x.index).mp h.2
    exact ⟨state, { stats with duplicates := stats.duplicates + 1 }, [], rfl, .dropped (.inl ⟨x.isData_iff.mp h.1, hrec⟩)⟩
  · rename_i h
    have hseen : x.kind = .data → x.index ∉ state.received.ones := by
      intro hk hr
      exact h ⟨x.isData_iff.mpr hk, (state.received.contains_iff x.index).mpr hr⟩
    split
    · rename_i p hp
      exfalso
      split at hp
      · contradiction
      · obtain ⟨b, hb, _⟩ := setIsConsumed_ok state hx
        rw [hb] at hp
        contradiction
    · rename_i hb
      split at hb
      · contradiction
      · rename_i hd
        obtain ⟨b, hb', hiff⟩ := setIsConsumed_ok state hx
        have hbt : b = true := Except.ok.inj (hb'.symm.trans hb)
        exact ⟨state, { stats with unneeded := stats.unneeded + 1 }, [], rfl, .dropped (.inr ⟨kind_code_of_not_data hd, hiff.mp hbt⟩)⟩
    · rename_i hb
      have hlive : x.kind = .code → ¬ state.SetConsumed x.fecSetIndex := by
        intro hk hcons
        have hd : ¬ x.isData = true := by
          intro hd
          rw [x.isData_iff.mp hd] at hk
          contradiction
        rw [if_neg hd] at hb
        obtain ⟨b, hb', hiff⟩ := setIsConsumed_ok state hx
        have hbf : b = false := Except.ok.inj (hb'.symm.trans hb)
        rw [hbf] at hiff
        exact absurd (hiff.mpr hcons) (by decide)
      exact storeInSet_cases hA hx rs stats hseen hlive

/-! ### What storing leaves behind -/

theorem Taken.fresh_at (h : Taken state x rs state' fresh root set' indexes) : ∀ i ∈ fresh,
    ∃ p : Fin 32, i = x.fecSetIndex + p ∧ (state.setAt x.fecSetIndex).data p = none ∧ (set'.data p).isSome := by
  have hget := h.accepts.fresh
  rw [FecSet.get_eq] at hget
  intro i hi
  rw [h.fresh_eq] at hi
  rcases List.mem_append.mp hi with hi | hi
  · split at hi
    · rename_i hd
      obtain rfl := List.mem_singleton.mp hi
      obtain ⟨p, hp⟩ := x.exists_position_data (x.isData_iff.mp hd)
      have hdata : ((state.setAt x.fecSetIndex).accepted x root).data p = some x := by
        rw [FecSet.accepted_data _ x root hp, Function.update_self]
      rw [hp] at hget
      exact ⟨p, (x.position_data hp).2.1, hget, by simp [h.recovering.keeps hdata]⟩
    · contradiction
  · obtain ⟨p, heq, hnone, hsome⟩ := h.recovering.mem_indexes i hi
    refine ⟨p, heq, ?_, hsome⟩
    cases hp : x.position with
    | data q =>
      rw [FecSet.accepted_data _ x root hp] at hnone
      by_cases hq : p = q
      · rw [hq, Function.update_self] at hnone
        contradiction
      · rwa [Function.update_of_ne hq] at hnone
    | code q =>
      rwa [FecSet.accepted_data_of_code _ x root hp] at hnone

theorem Taken.fresh_nodup (h : Taken state x rs state' fresh root set' indexes) : fresh.Nodup := by
  rw [h.fresh_eq]
  split
  · rename_i hd
    refine List.nodup_append.mpr ⟨List.nodup_singleton _, h.recovering.nodup, ?_⟩
    intro i hi j hj hij
    obtain rfl := List.mem_singleton.mp hi
    obtain ⟨p, hp⟩ := x.exists_position_data (x.isData_iff.mp hd)
    obtain ⟨q, hq, hnone, _⟩ := h.recovering.mem_indexes j hj
    have hpos := (x.position_data hp).2.1
    have hpq : q = p := Fin.ext (by omega)
    rw [hpq, FecSet.accepted_data _ x root hp, Function.update_self] at hnone
    contradiction
  · exact h.recovering.nodup

theorem Taken.shredAt_same (h : Taken state x rs state' fresh root set' indexes) {p : Fin 32} :
    state'.shredAt (x.fecSetIndex + p) = set'.data p := by
  rw [shredAt_add _ x.valid.aligned, setAt, h.sets, Function.update_self, Option.getD_some]

theorem Taken.shredAt_other (h : Taken state x rs state' fresh root set' indexes) {i : ℕ}
    (hi : i - i % 32 ≠ x.fecSetIndex) : state'.shredAt i = state.shredAt i := by
  simp only [shredAt, setAt, h.sets, Function.update_of_ne hi]

theorem Taken.fresh_unseen (h : Taken state x rs state' fresh root set' indexes) (hA : Assembling state) :
    ∀ i ∈ fresh, i ∉ state.received.ones := by
  intro i hi hr
  obtain ⟨p, heq, hnone, _⟩ := h.fresh_at i hi
  have ha := x.valid.aligned
  have hplt := p.isLt
  rcases hA.shred i hr with ⟨y, hy, _⟩ | hc
  · rw [heq, shredAt_add _ ha, hnone] at hy
    contradiction
  · have hset : i - i % 32 = x.fecSetIndex := by omega
    rw [hset] at hc
    exact h.live hc

theorem Taken.shredAt_mono (h : Taken state x rs state' fresh root set' indexes) {i : ℕ} {y : Shred}
    (hy : state.shredAt i = some y) : state'.shredAt i = some y := by
  by_cases hi : i - i % 32 = x.fecSetIndex
  · obtain ⟨p, heq⟩ : ∃ p : Fin 32, i = x.fecSetIndex + p :=
      ⟨⟨i % 32, Position.mod_lt _⟩, by simp only; omega⟩
    rw [heq, shredAt_add _ x.valid.aligned] at hy
    rw [heq, h.shredAt_same]
    exact h.recovering.keeps (FecSet.accepted_keeps root h.accepts.fresh hy)
  · rw [h.shredAt_other hi]
    exact hy

theorem Taken.inv (h : Taken state x rs state' fresh root set' indexes) (hA : Assembling state) :
    FecSet.Inv x.fecSetIndex set' :=
  h.recovering.inv ((hA.setAt_inv _).accepted rfl h.accepts)

/- `i` closes no run now unless it did before, or is fresh. -/
theorem Taken.complete_old (h : Taken state x rs state' fresh root set' indexes) (hA : Assembling state) {i : ℕ}
    (hr : i ∈ state.received.ones) : i ∈ state'.complete.ones ↔ i ∈ state.complete.ones := by
  rw [h.complete]
  constructor
  · intro h
    rcases h with hc | hc
    · exact hc
    · exact absurd hr (h.fresh_unseen hA i hc.1)
  · exact .inl

theorem Taken.assembling (h : Taken state x rs state' fresh root set' indexes) (hx : x.fecSetIndex ≤ 32736)
    (hA : Assembling state) : Assembling state' where
  keyed f set hf := by
    rw [h.sets] at hf
    rcases update_eq_some hf with ⟨rfl, rfl⟩ | hf
    · exact ⟨x.valid.aligned, hx, h.inv hA⟩
    · exact hA.keyed f set hf
  shred i hi := by
    rcases (h.received i).mp hi with hr | hfresh
    · rw [h.complete_old hA hr]
      rcases hA.shred i hr with ⟨y, hy, hdc⟩ | hc
      · exact .inl ⟨y, h.shredAt_mono hy, hdc⟩
      · right
        intro j h1 h2
        rw [h.consumed]
        exact hc j h1 h2
    · obtain ⟨p, heq, _, hsome⟩ := h.fresh_at i hfresh
      obtain ⟨y, hy⟩ := Option.isSome_iff_exists.mp hsome
      refine .inl ⟨y, by rw [heq, h.shredAt_same, hy], ?_⟩
      rw [h.complete]
      constructor
      · intro h
        rcases h with hc | ⟨_, q, z, hq, hz, hdc⟩
        · exact absurd (hA.complete_received hc) (h.fresh_unseen hA i hfresh)
        · have hqp : q = p := Fin.ext (by omega)
          rw [hqp, hy, Option.some.injEq] at hz
          rw [hz]
          exact hdc
      · exact fun hdc => .inr ⟨hfresh, p, y, heq, hy, hdc⟩
  complete_received i hi := by
    rw [h.received]
    rcases (h.complete i).mp hi with hc | hc
    · exact .inl (hA.complete_received hc)
    · exact .inr hc.1
  consumed_received i hi := by
    rw [h.consumed] at hi
    rw [h.received]
    exact .inl (hA.consumed_received hi)
  runs i hi := by
    rw [h.consumed] at hi ⊢
    obtain ⟨s, e, hrun, h1, h2, hall⟩ := hA.runs i hi
    refine ⟨s, e, hrun.mono ?_ ?_ ?_, h1, h2, hall⟩
    · exact fun j hj => (h.received j).mpr (.inl hj)
    · exact fun j hj => (h.complete j).mpr (.inl hj)
    · exact fun j hj hr => (h.complete_old hA hr).mp hj

theorem Stored.assembling (h : Stored state x rs state' fresh) (hx : x.fecSetIndex ≤ 32736)
    (hA : Assembling state) : Assembling state' := by
  cases h with
  | dropped _ => exact hA
  | turnedAway why _ _ _ _ =>
    refine ⟨?_, ?_, hA.complete_received, hA.consumed_received, hA.runs⟩
    · intro f set hf
      rcases update_eq_some hf with ⟨rfl, rfl⟩ | hf
      · exact ⟨x.valid.aligned, hx, hA.setAt_inv _⟩
      · exact hA.keyed f set hf
    · intro i hi
      simp only [shredAt, putSet_setAt]
      exact hA.shred i hi
  | taken state' fresh root set' indexes h => exact h.assembling hx hA

theorem Stored.marks (h : Stored state x rs state' fresh) (hA : Assembling state) :
    Marks state state' fresh := by
  cases h with
  | dropped _ => exact ⟨by simp, by simp, fun i hi => hi, fun i hi => .inl hi, fun i hi _ => hi, rfl, by simp⟩
  | turnedAway why _ _ _ _ =>
    exact ⟨by simp [putSet], by simp, fun i hi => hi, fun i hi => .inl hi, fun i hi _ => hi, rfl, by simp⟩
  | taken state' fresh root set' indexes h =>
    refine ⟨h.received, h.fresh_unseen hA, ?_, ?_, ?_, h.consumed, h.fresh_nodup⟩
    · exact fun i hi => (h.complete i).mpr (.inl hi)
    · exact fun i hi => ((h.complete i).mp hi).imp id And.left
    · exact fun i hi hr => (h.complete_old hA hr).mp hi

/-! ### The whole call -/

/-- One call: `mid` is the slot after the first half, `out` lists the runs that are
complete now and were not before. -/
structure Inserted (state : SlotState) (x : Shred) (rs : Option ReedSolomon) (mid : SlotState)
    (fresh : List ℕ) (state' : SlotState) (out : List Segment) : Prop extends Emitting mid state' out where
  stored : Stored state x rs mid fresh
  out_iff : ∀ s e, (s, e) ∈ out.map Segment.shreds ↔ mid.Run s e ∧ ¬ state.Run s e

/-- The first thing `insert` does with a code shred is to read the bits of its set. -/
theorem store_panics {state : SlotState} {x : Shred} (hk : x.kind = .code) (hx : 32736 < x.fecSetIndex)
    (rs : Option ReedSolomon) (stats : Stats) : state.store x rs stats = .error .countOnesOutOfRange := by
  have hd : x.isData = false := by simp [Shred.isData, hk]
  simp only [store, hd, Bool.false_eq_true, false_and, ↓reduceIte, setIsConsumed_panics hx]

theorem insert_panics {state : SlotState} {x : Shred} (hk : x.kind = .code) (hx : 32736 < x.fecSetIndex)
    (rs : Option ReedSolomon) (stats : Stats) : state.insert x rs stats = .error .countOnesOutOfRange := by
  simp only [insert, store_panics hk hx]

theorem fecSetIndex_of_insert {state state' : SlotState} {x : Shred} {rs : Option ReedSolomon}
    {stats stats' : Stats} {out : List Segment} (h : state.insert x rs stats = .ok (state', stats', out)) :
    x.fecSetIndex ≤ 32736 := by
  cases hk : x.kind with
  | data =>
    obtain ⟨p, hp⟩ := x.exists_position_data hk
    exact (x.position_data hp).2.2.1
  | code =>
    by_contra hx
    rw [insert_panics hk (by omega)] at h
    contradiction

theorem insert_cases (hI : SlotInv state) (hx : x.fecSetIndex ≤ 32736) (rs : Option ReedSolomon) (stats : Stats) :
    ∃ mid fresh state' stats' out, state.store x rs stats = .ok (mid, stats', fresh) ∧
      state.insert x rs stats = .ok (state', stats', out) ∧ SlotInv state' ∧
      Inserted state x rs mid fresh state' out := by
  obtain ⟨mid, stats', fresh, hstore, hst⟩ := store_cases hI.toAssembling hx rs stats
  have hmid := hst.assembling hx hI.toAssembling
  have hmarks := hst.marks hI.toAssembling
  obtain ⟨state', out, hrun, hE, htouched⟩ := (Emitting.refl hmid).completeAll fresh
  rw [List.nil_append] at hE
  have hout := hmarks.out_iff hI hE htouched
  refine ⟨mid, fresh, state', stats', out, hstore, by simp only [insert, hstore, hrun], ⟨hE.toAssembling, ?_⟩,
    ⟨hE, hst, hout⟩⟩
  intro s e hr
  have hr : mid.Run s e := by
    simp only [Run, hE.received, hE.complete] at hr
    exact hr
  rw [hE.consumed]
  by_cases hold : state.Run s e
  · left
    rw [hmarks.consumed]
    exact hI.emitted s e hold
  · obtain ⟨seg, hseg, heq⟩ := List.mem_map.mp ((hout s e).mpr ⟨hr, hold⟩)
    refine .inr ⟨seg, hseg, ?_⟩
    rw [heq]
    exact ⟨le_rfl, hr.le⟩

theorem insert_spec (hI : SlotInv state) (hx : x.fecSetIndex ≤ 32736) {stats stats' : Stats} {out : List Segment}
    (h : state.insert x rs stats = .ok (state', stats', out)) :
    SlotInv state' ∧ ∃ mid fresh, state.store x rs stats = .ok (mid, stats', fresh) ∧
      Inserted state x rs mid fresh state' out := by
  obtain ⟨mid, fresh, state₁, stats₁, out₁, hstore, hok, hI', hins⟩ := insert_cases hI hx rs stats
  rw [h, Except.ok.injEq, Prod.mk.injEq, Prod.mk.injEq] at hok
  obtain ⟨rfl, rfl, rfl⟩ := hok
  exact ⟨hI', mid, fresh, hstore, hins⟩

theorem insert_ok_iff {state : SlotState} (hI : SlotInv state) (x : Shred) (rs : Option ReedSolomon)
    (stats : Stats) : (∃ r, state.insert x rs stats = .ok r) ↔ (x.kind = .code → x.fecSetIndex ≤ 32736) := by
  constructor
  · intro ⟨⟨state', stats', out⟩, h⟩ _
    exact fecSetIndex_of_insert h
  · intro h
    have hx : x.fecSetIndex ≤ 32736 := by
      cases hk : x.kind with
      | data =>
        obtain ⟨p, hp⟩ := x.exists_position_data hk
        exact (x.position_data hp).2.2.1
      | code => exact h hk
    obtain ⟨_, _, state', stats', out, _, hok, _⟩ := insert_cases hI hx rs stats
    exact ⟨_, hok⟩

/-- `insert` hands the shred to its set, and the set returns `New`. -/
structure TakesIn (state : SlotState) (x : Shred) : Prop where
  unseen : x.kind = .data → x.index ∉ state.received.ones
  live : x.kind = .code → ¬ state.SetConsumed x.fecSetIndex
  new : ((state.setAt x.fecSetIndex).insert x).2 = .new

theorem TakesIn.live_set {state : SlotState} {x : Shred} (h : state.TakesIn x) (hA : Assembling state) :
    ¬ state.SetConsumed x.fecSetIndex := by
  cases hk : x.kind with
  | data => exact not_consumed_of_unseen hA hk (h.unseen hk)
  | code => exact h.live hk

theorem Taken.takesIn (h : Taken state x rs state' fresh root set' indexes) : state.TakesIn x where
  unseen := h.unseen
  live _ := h.live
  new := ((state.setAt x.fecSetIndex).insert_new_iff x).mpr ⟨root, h.accepts⟩

theorem Stored.taken_of_takesIn (h : Stored state x rs state' fresh) (hx : state.TakesIn x) :
    ∃ root set' indexes, Taken state x rs state' fresh root set' indexes := by
  cases h with
  | dropped h =>
    rcases h with ⟨hk, h⟩ | ⟨hk, h⟩
    · exact absurd h (hx.unseen hk)
    · exact absurd h (hx.live hk)
  | turnedAway why hwhy _ _ h =>
    have hnew := hx.new
    rw [h] at hnew
    exact absurd hnew hwhy
  | taken state' fresh root set' indexes h => exact ⟨root, set', indexes, h⟩

/-- What passes all checks was taken in, with the root its proof leads to. -/
theorem Stored.taken_of_accepts (h : Stored state x rs state' fresh)
    (hseen : x.kind = .data → x.index ∉ state.received.ones) (hlive : x.kind = .code → ¬ state.SetConsumed x.fecSetIndex)
    (hacc : FecSet.Accepts (state.setAt x.fecSetIndex) x root) :
    ∃ set' indexes, Taken state x rs state' fresh root set' indexes := by
  have hin : state.TakesIn x := ⟨hseen, hlive, ((state.setAt x.fecSetIndex).insert_new_iff x).mpr ⟨root, hacc⟩⟩
  obtain ⟨root', set', indexes, ht⟩ := h.taken_of_takesIn hin
  obtain rfl : root' = root := Option.some.inj (ht.accepts.proof.symm.trans hacc.proof)
  exact ⟨set', indexes, ht⟩

theorem stored_in_empty {state : SlotState} {x : Shred} {rs : Option ReedSolomon} {mid : SlotState}
    {fresh : List ℕ} (hk : x.kind = .data) (hset : state.setAt x.fecSetIndex = FecSet.empty)
    (hr : x.index ∉ state.received.ones) {root : Hash32} (hroot : x.merkleRoot = some root)
    (hst : Stored state x rs mid fresh) : ∃ set' indexes, Taken state x rs mid fresh root set' indexes := by
  have hacc : FecSet.Accepts (state.setAt x.fecSetIndex) x root := by
    rw [hset]
    refine ⟨fun _ => rfl, ?_, hroot, .inl rfl⟩
    rw [FecSet.get_eq]
    cases x.position <;> rfl
  apply hst.taken_of_accepts (fun _ => hr) _ hacc
  intro hc
  rw [hk] at hc
  contradiction

/-- The first shred of a slot, when it says that it ends a run, is a run of its own. -/
theorem insert_empty_emits {x : Shred} {rs : Option ReedSolomon} {stats stats' : Stats} {state' : SlotState}
    {out : List Segment} (hk : x.kind = .data) (hi : x.index = 0) (hd : x.dataComplete = true)
    (h : SlotState.empty.insert x rs stats = .ok (state', stats', out)) : out ≠ [] := by
  obtain ⟨_, mid, fresh, _, hins⟩ := insert_spec SlotInv.empty (fecSetIndex_of_insert h) h
  obtain ⟨p, hp⟩ := x.exists_position_data hk
  have hpos := x.position_data hp
  have hzero : x.erasureShardIndex = 0 := by omega
  obtain ⟨root, hroot⟩ := Option.isSome_iff_exists.mp (x.merkleRoot_isSome hzero)
  obtain ⟨set', indexes, ht⟩ := stored_in_empty hk rfl (by simp [SlotState.empty]) hroot hins.stored
  have hfresh : 0 ∈ fresh := by
    rw [ht.fresh_eq, if_pos (x.isData_iff.mpr hk), hi]
    exact List.mem_cons_self ..
  have hheld : set'.data p = some x :=
    ht.recovering.keeps (by rw [FecSet.accepted_data _ x root hp, Function.update_self])
  have hrun : mid.Run 0 0 := by
    refine ⟨le_rfl, ?_, ?_, fun i h1 h2 => by omega, .inl rfl⟩
    · intro i h1 h2
      obtain rfl : i = 0 := by omega
      exact (ht.received 0).mpr (.inr hfresh)
    · exact (ht.complete 0).mpr (.inr ⟨hfresh, p, x, by omega, hheld, hd⟩)
  have hold : ¬ SlotState.empty.Run 0 0 := fun hr => absurd hr.closed (by simp [SlotState.empty])
  intro hnil
  have hmem := (hins.out_iff 0 0).mpr ⟨hrun, hold⟩
  rw [hnil] at hmem
  contradiction

end

end SlotState
end Deshred
