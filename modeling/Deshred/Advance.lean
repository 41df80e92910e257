import Deshred.Window

/-!
# What it costs to move the window

A slot moves the window with its first complete run. Recovery runs only on 32 shreds
that were accepted, but a data shred can complete a run without any recovery.
-/

namespace Deshred
open Runs

namespace FecSet
variable {f : ℕ} {set : FecSet} {q : Position}

/- The places that hold a shred. -/
def places (set : FecSet) : Finset Position :=
  (Finset.univ.filter fun p => (set.data p).isSome).image .data ∪
    (Finset.univ.filter fun p => (set.code p).isSome).image .code

theorem mem_places : q ∈ set.places ↔ (set.held q).isSome := by
  cases q with
  | data p => simp [places, held]
  | code p => simp [places, held]

theorem Placed.places_card (h : Placed f set) : set.places.card = set.numData + set.numCode := by
  have hdisj : Disjoint ((Finset.univ.filter fun p => (set.data p).isSome).image Position.data)
      ((Finset.univ.filter fun p => (set.code p).isSome).image Position.code) := by
    rw [Finset.disjoint_left]
    intro r hd hc
    obtain ⟨p, _, rfl⟩ := Finset.mem_image.mp hd
    obtain ⟨p', _, heq⟩ := Finset.mem_image.mp hc
    contradiction
  rw [places, Finset.card_union_of_disjoint hdisj,
    Finset.card_image_of_injective _ (fun a b hab => Position.data.inj hab),
    Finset.card_image_of_injective _ (fun a b hab => Position.code.inj hab), h.num_data, h.num_code]
  rfl

theorem Placed.places_of_canRecover (h : Placed f set) (hc : set.canRecover = true) : 32 ≤ set.places.card := by
  rw [h.places_card]
  simp only [canRecover, dataShredsPerFecSet, Bool.and_eq_true] at hc
  exact of_decide_eq_true hc.2

end FecSet

/- 32 positions of one set meet `A`. -/
def Enough (A : Position → Prop) : Prop := ∃ S : Finset Position, 32 ≤ S.card ∧ ∀ q ∈ S, A q

theorem Enough.mono {A B : Position → Prop} (h : Enough A) (hAB : ∀ q, A q → B q) : Enough B := by
  obtain ⟨S, hcard, hS⟩ := h
  exact ⟨S, hcard, fun q hq => hAB q (hS q hq)⟩

namespace SlotState
variable [Hasher] {state state' mid : SlotState} {x : Shred} {rs : Option ReedSolomon} {fresh indexes : List ℕ}
  {out : List Segment} {root : Hash32} {set' : FecSet} {A B : ℕ → Position → Prop}

/-- Everything a set holds meets `A`, or 32 of its positions do. -/
def Accounted (A : ℕ → Position → Prop) (state : SlotState) : Prop :=
  ∀ f, (∀ q ∈ (state.setAt f).places, A f q) ∨ Enough (A f)

omit [Hasher] in
theorem Accounted.empty : Accounted A SlotState.empty := by
  intro f
  left
  intro q hq
  rw [FecSet.mem_places] at hq
  cases q <;> contradiction

omit [Hasher] in
theorem Accounted.mono (h : Accounted A state) (hAB : ∀ f q, A f q → B f q) : Accounted B state := by
  intro f
  rcases h f with h | h
  · exact .inl fun q hq => hAB f q (h q hq)
  · exact .inr (h.mono (hAB f))

theorem Taken.places_accepted (h : Taken state x rs mid fresh root set' indexes) :
    ∀ q ∈ ((state.setAt x.fecSetIndex).accepted x root).places, q ∈ (state.setAt x.fecSetIndex).places ∨
      q = x.position := by
  intro q hq
  obtain ⟨y, hy⟩ := Option.isSome_iff_exists.mp (FecSet.mem_places.mp hq)
  rcases FecSet.accepted_held h.accepts.needed hy with hold | ⟨hqx, _⟩
  · exact .inl (FecSet.mem_places.mpr (by simp [hold]))
  · exact .inr hqx

omit [Hasher] in
theorem Recovering.idle_or_enough {f : ℕ} {set : FecSet} {P : Position → Prop} (hI : FecSet.Inv f set)
    (h : Recovering f set rs set' indexes) (hP : (∀ q ∈ set.places, P q) ∨ Enough P) :
    set' = set ∧ indexes = [] ∨ Enough P := by
  have hcan : set.canRecover = true → Enough P := by
    intro hc
    rcases hP with hP | hP
    · exact ⟨set.places, hI.toPlaced.places_of_canRecover hc, hP⟩
    · exact hP
  cases h with
  | idle _ => exact .inl ⟨rfl, rfl⟩
  | failed r set' e _ hc _ _ => exact .inr (hcan hc)
  | complete r set' indexes _ hc _ _ => exact .inr (hcan hc)

theorem Taken.accounted (h : Taken state x rs mid fresh root set' indexes) (hA : Accounted A state)
    (hx : A x.fecSetIndex x.position) :
    (∀ q ∈ ((state.setAt x.fecSetIndex).accepted x root).places, A x.fecSetIndex q) ∨ Enough (A x.fecSetIndex) := by
  rcases hA x.fecSetIndex with hall | hmany
  · left
    intro q hq
    rcases h.places_accepted q hq with hold | rfl
    · exact hall q hold
    · exact hx
  · exact .inr hmany

theorem Stored.accounted (h : Stored state x rs mid fresh) (hI : SlotInv state) (hA : Accounted A state)
    (hx : state.TakesIn x → A x.fecSetIndex x.position) : Accounted A mid := by
  cases h with
  | dropped _ => exact hA
  | turnedAway why _ _ _ _ =>
    intro f
    rw [putSet_setAt]
    exact hA f
  | taken mid fresh root set' indexes h =>
    intro f
    by_cases hf : f = x.fecSetIndex
    · have hset : mid.setAt f = set' := by
        rw [setAt, h.sets, hf, Function.update_self, Option.getD_some]
      rw [hset, hf]
      have hacc := h.accounted hA (hx h.takesIn)
      have hI' := (hI.setAt_inv x.fecSetIndex).accepted rfl h.accepts
      rcases Recovering.idle_or_enough hI' h.recovering hacc with ⟨hsame, _⟩ | hmany
      · rw [hsame]
        exact hacc
      · exact .inr hmany
    · have hset : mid.setAt f = state.setAt f := by
        rw [setAt, h.sets, Function.update_of_ne hf, setAt]
      rw [hset]
      exact hA f

theorem Inserted.accounted (h : Inserted state x rs mid fresh state' out) (hI : SlotInv state)
    (hA : Accounted A state) (hx : state.TakesIn x → A x.fecSetIndex x.position) : Accounted A state' := by
  intro f
  rcases h.sets f with hsame | ⟨hnone, _⟩
  · have hset : state'.setAt f = mid.setAt f := by rw [setAt, hsame, setAt]
    rw [hset]
    exact h.stored.accounted hI hA hx f
  · left
    intro q hq
    rw [FecSet.mem_places, setAt, hnone] at hq
    cases q <;> contradiction

/-- Marking the index of `x` completes a run. -/
def Closes (state : SlotState) (x : Shred) : Prop :=
  ∃ s e, IsRun (Insert.insert x.index state.received.ones)
    (if x.dataComplete then Insert.insert x.index state.complete.ones else state.complete.ones) s e ∧
    ¬ state.Run s e

/-- A data shred whose set does not recover marks its own index and nothing else. -/
theorem Taken.run_iff (h : Taken state x rs mid fresh root set' indexes) (hk : x.kind = .data)
    (hset : set' = (state.setAt x.fecSetIndex).accepted x root) (hidx : indexes = []) (s e : ℕ) :
    mid.Run s e ↔ IsRun (Insert.insert x.index state.received.ones)
      (if x.dataComplete then Insert.insert x.index state.complete.ones else state.complete.ones) s e := by
  obtain ⟨p, hp⟩ := x.exists_position_data hk
  have hpos := x.position_data hp
  have hfresh : fresh = [x.index] := by
    rw [h.fresh_eq, if_pos (x.isData_iff.mpr hk), hidx, List.append_nil]
  have hheld : set'.data p = some x := by
    rw [hset, FecSet.accepted_data _ x root hp, Function.update_self]
  have hreceived : mid.received.ones = Insert.insert x.index state.received.ones := by
    ext i
    rw [h.received, hfresh, Finset.mem_insert, List.mem_singleton]
    exact or_comm
  have hcomplete : mid.complete.ones =
      if x.dataComplete then Insert.insert x.index state.complete.ones else state.complete.ones := by
    ext i
    rw [h.complete, hfresh, List.mem_singleton]
    -- the only shred that is new in the set is `x`
    have hone : (i = x.index ∧ ∃ (r : Fin 32) (y : Shred), i = x.fecSetIndex + r ∧ set'.data r = some y ∧
        y.dataComplete = true) ↔ i = x.index ∧ x.dataComplete = true := by
      constructor
      · intro ⟨hi, r, y, hr, hy, hdc⟩
        have hrp : r = p := Fin.ext (by omega)
        rw [hrp, hheld, Option.some.injEq] at hy
        exact ⟨hi, by rw [hy, hdc]⟩
      · intro ⟨hi, hdc⟩
        exact ⟨hi, p, x, by omega, hheld, hdc⟩
    rw [hone]
    split
    · rename_i hdc
      rw [Finset.mem_insert]
      simp [hdc, or_comm]
    · rename_i hdc
      simp [hdc]
  rw [Run, hreceived, hcomplete]

/-- Short of 32 accepted positions, only a data shred that closes a run emits. -/
theorem Inserted.emits_iff (h : Inserted state x rs mid fresh state' out) (hI : SlotInv state)
    (hA : Accounted A state) (hx : state.TakesIn x → A x.fecSetIndex x.position) (hfew : ¬ Enough (A x.fecSetIndex)) :
    out ≠ [] ↔ x.kind = .data ∧ state.TakesIn x ∧ state.Closes x := by
  have hout : out ≠ [] ↔ ∃ s e, mid.Run s e ∧ ¬ state.Run s e := by
    constructor
    · intro hne
      obtain ⟨seg, hseg⟩ := List.exists_mem_of_ne_nil out hne
      exact ⟨seg.shreds.1, seg.shreds.2, (h.out_iff _ _).mp (List.mem_map.mpr ⟨seg, hseg, rfl⟩)⟩
    · intro ⟨s, e, hr⟩ hnil
      have hmem := (h.out_iff s e).mpr hr
      rw [hnil] at hmem
      contradiction
  have hidle : ∀ root set' indexes, Taken state x rs mid fresh root set' indexes →
      set' = (state.setAt x.fecSetIndex).accepted x root ∧ indexes = [] := by
    intro root set' indexes ht
    have hI' := (hI.setAt_inv x.fecSetIndex).accepted rfl ht.accepts
    exact (Recovering.idle_or_enough hI' ht.recovering (ht.accounted hA (hx ht.takesIn))).resolve_right hfew
  rw [hout]
  constructor
  · intro ⟨s, e, hrun, hnew⟩
    have hsame : fresh ≠ [] := by
      intro hnil
      have hm := h.stored.marks hI.toAssembling
      refine hnew (hrun.mono ?_ ?_ ?_)
      · intro i hi
        have := (hm.received i).mp hi
        simpa [hnil] using this
      · intro i hi
        have := hm.complete_new i hi
        simpa [hnil] using this
      · exact fun i hi _ => hm.complete_mono hi
    cases h.stored with
    | dropped _ => contradiction
    | turnedAway why _ _ _ _ => contradiction
    | taken mid fresh root set' indexes ht =>
      obtain ⟨hset, hidx⟩ := hidle root set' indexes ht
      have hk : x.kind = .data := by
        by_contra hk
        have hd : ¬ x.isData = true := fun hd => hk (x.isData_iff.mp hd)
        rw [ht.fresh_eq, if_neg hd, hidx] at hsame
        contradiction
      exact ⟨hk, ht.takesIn, s, e, (ht.run_iff hk hset hidx s e).mp hrun, hnew⟩
  · intro ⟨hk, hin, s, e, hrun, hnew⟩
    obtain ⟨root, set', indexes, ht⟩ := h.stored.taken_of_takesIn hin
    obtain ⟨hset, hidx⟩ := hidle root set' indexes ht
    exact ⟨s, e, (ht.run_iff hk hset hidx s e).mpr hrun, hnew⟩

end SlotState

namespace Deshredder
variable [Hasher] {d d' : Deshredder} {packet : Bytes} {out out' : List RawBatch} {config : Config}
  {rs : ReedSolomon} {packets : List Bytes} {slot f : ℕ} {q : Position}

/-- `FecSet::insert` returns `New` for the shred of the datagram, at position `q` of
set `f` of the slot. -/
def Accepted (d : Deshredder) (packet : Bytes) (slot f : ℕ) (q : Position) : Prop :=
  ∃ x, Admitted d packet x ∧ x.slot = slot ∧ x.fecSetIndex = f ∧ x.position = q ∧ (d.slotState x.slot).TakesIn x

/- Accepted at some point of the sequence. -/
def AcceptedIn (config : Config) (rs : ReedSolomon) (packets : List Bytes) (slot f : ℕ) (q : Position) : Prop :=
  Steps.Occurs pushRaw (new config rs) (fun d packet => Accepted d packet slot f q) packets

theorem acceptedIn_snoc (hd : (new config rs).pushAll packets = .ok (d, out)) :
    AcceptedIn config rs (packets ++ [packet]) slot f q ↔
      AcceptedIn config rs packets slot f q ∨ Accepted d packet slot f q :=
  Steps.occurs_snoc hd

/-- 32 positions of one FEC set of the slot were accepted. -/
def WholeSet (config : Config) (rs : ReedSolomon) (packets : List Bytes) (slot : ℕ) : Prop :=
  ∃ f, Enough (AcceptedIn config rs packets slot f)

/-- All a Deshredder holds was accepted, slot by slot. -/
theorem accounted (hd : (new config rs).pushAll packets = .ok (d, out)) :
    ∀ t, (d.slotState t).Accounted (AcceptedIn config rs packets t) := by
  have hboth : SlotsInv d ∧ ∀ t, (d.slotState t).Accounted (AcceptedIn config rs packets t) := by
    refine Steps.runAll_induct (P := fun packets (d : Deshredder) (_ : List RawBatch) =>
      SlotsInv d ∧ ∀ t, (d.slotState t).Accounted (AcceptedIn config rs packets t)) ?_ ?_ hd
    · exact ⟨SlotsInv.new config rs, fun t => SlotState.Accounted.empty⟩
    · intro before d os b d' out hrun ⟨hI, hA⟩ hstep
      have hp := pushRaw_cases hstep
      refine ⟨hI.pushed hp, fun t => ?_⟩
      have hmono : (d.slotState t).Accounted (AcceptedIn config rs (before ++ [b]) t) :=
        (hA t).mono fun f q hq => (acceptedIn_snoc hrun).mpr (.inl hq)
      cases hp with
      | dropped stats _ => exact hmono
      | inserted x state stats stats' segments hx hins =>
        by_cases ht : t ∈ (d.settle x.slot state stats' segments).slots.keys
        · rw [settle_slotState ht]
          split
          · rename_i heq
            subst heq
            obtain ⟨_, mid, fresh, _, hone⟩ :=
              SlotState.insert_spec (hI.slotState x.slot) (SlotState.fecSetIndex_of_insert hins) hins
            exact hone.accounted (hI.slotState x.slot) hmono fun hin =>
              (acceptedIn_snoc hrun).mpr (.inr ⟨x, hx, rfl, rfl, rfl, hin⟩)
          · exact hmono
        · rw [OrdMap.mem_keys, Option.not_isSome_iff_eq_none] at ht
          rw [Deshredder.slotState, ht]
          exact SlotState.Accounted.empty
  exact hboth.2

/-- Raising `highest_slot` costs a whole set. -/
def PaysForWindow (config : Config) (rs : ReedSolomon) (packets : List Bytes) (d : Deshredder) (packet : Bytes) :
    Prop :=
  ∀ d' out', d.pushRaw packet = .ok (d', out') → d.highestSlot < d'.highestSlot →
    WholeSet config rs (packets ++ [packet]) d'.highestSlot

/-- The shred of the datagram closes a run of a slot above the window while, with it,
fewer than 32 positions of each set of the slot were accepted. -/
structure MovesAlone (config : Config) (rs : ReedSolomon) (packets : List Bytes) (d : Deshredder) (packet : Bytes)
    (x : Shred) : Prop where
  admitted : Admitted d packet x
  data : x.kind = .data
  above : d.highestSlot < x.slot
  takesIn : (d.slotState x.slot).TakesIn x
  closes : (d.slotState x.slot).Closes x
  few : ∀ (f : ℕ) (S : Finset Position), (∀ q ∈ S, AcceptedIn config rs packets x.slot f q ∨
    f = x.fecSetIndex ∧ q = x.position) → S.card < 32

/- The shred itself counts among the accepted ones. -/
theorem few_iff {x : Shred} (hd : (new config rs).pushAll packets = .ok (d, out)) (hx : Admitted d packet x)
    (hin : (d.slotState x.slot).TakesIn x) :
    (∀ (f : ℕ) (S : Finset Position), (∀ q ∈ S, AcceptedIn config rs packets x.slot f q ∨
      f = x.fecSetIndex ∧ q = x.position) → S.card < 32) ↔ ¬ WholeSet config rs (packets ++ [packet]) x.slot := by
  have hnow : ∀ f q, AcceptedIn config rs (packets ++ [packet]) x.slot f q ↔
      AcceptedIn config rs packets x.slot f q ∨ f = x.fecSetIndex ∧ q = x.position := by
    intro f q
    rw [acceptedIn_snoc hd]
    refine or_congr_right ⟨?_, ?_⟩
    · intro ⟨y, hy, _, hf, hq, _⟩
      rw [Except.ok.inj (hy.parsed.symm.trans hx.parsed)] at hf hq
      exact ⟨hf.symm, hq.symm⟩
    · intro ⟨hf, hq⟩
      exact ⟨x, hx, rfl, hf.symm, hq.symm, hin⟩
  constructor
  · intro hfew ⟨f, S, hcard, hS⟩
    have hlt := hfew f S fun q hq => (hnow f q).mp (hS q hq)
    omega
  · intro hno f S hS
    by_contra hge
    exact hno ⟨f, S, by omega, fun q hq => (hnow f q).mpr (hS q hq)⟩

theorem pays_for_window_iff (config : Config) (rs : ReedSolomon) (packets : List Bytes)
    (hd : (new config rs).pushAll packets = .ok (d, out)) (packet : Bytes) :
    PaysForWindow config rs packets d packet ↔ ∀ x, ¬ MovesAlone config rs packets d packet x := by
  have hI := slotsInv_of_pushAll hd
  -- what the slot makes of an admitted shred while no set of it is whole
  have hemits : ∀ x state stats stats' segments, Admitted d packet x →
      (d.slotState x.slot).insert x d.recoverWith stats = .ok (state, stats', segments) →
      ¬ WholeSet config rs (packets ++ [packet]) x.slot → (segments ≠ [] ↔
        x.kind = .data ∧ (d.slotState x.slot).TakesIn x ∧ (d.slotState x.slot).Closes x) := by
    intro x state stats stats' segments hx hins hno
    obtain ⟨_, mid, fresh, _, hone⟩ :=
      SlotState.insert_spec (hI.slotState x.slot) (SlotState.fecSetIndex_of_insert hins) hins
    refine hone.emits_iff (hI.slotState x.slot) ((accounted hd x.slot).mono fun f q hq =>
      (acceptedIn_snoc hd).mpr (.inl hq)) ?_ fun hmany => hno ⟨_, hmany⟩
    exact fun hin => (acceptedIn_snoc hd).mpr (.inr ⟨x, hx, rfl, rfl, rfl, hin⟩)
  constructor
  · intro hpays x hx
    have hno := (few_iff hd hx.admitted hx.takesIn).mp hx.few
    obtain ⟨d', out', hok⟩ := push_data_returns hI hx.admitted.parsed hx.data
    have hpaid := hpays d' out' hok
    cases pushRaw_cases hok with
    | dropped stats hnone => exact hnone x hx.admitted
    | inserted y state stats stats' segments hy hins =>
      obtain rfl : y = x := Except.ok.inj (hy.parsed.symm.trans hx.admitted.parsed)
      have hne := (hemits y state stats stats' segments hy hins hno).mpr ⟨hx.data, hx.takesIn, hx.closes⟩
      have hhigh : (d.settle y.slot state stats' segments).highestSlot = y.slot := by
        rw [settle_highestSlot, if_pos (by simp [advances, hne, hx.above])]
      rw [hhigh] at hpaid
      exact hno (hpaid hx.above)
  · intro hnone d' out' hok hraise
    cases pushRaw_cases hok with
    | dropped stats _ => exact absurd hraise (lt_irrefl _)
    | inserted x state stats stats' segments hx hins =>
      rw [settle_highestSlot] at hraise ⊢
      split at hraise
      · rename_i hadv
        rw [if_pos hadv]
        by_contra hno
        simp only [advances, decide_eq_true_eq] at hadv
        obtain ⟨hk, hin, hcl⟩ := (hemits x state stats stats' segments hx hins hno).mp hadv.1
        exact hnone x ⟨hx, hk, hraise, hin, hcl, (few_iff hd hx hin).mpr hno⟩
      · exact absurd hraise (lt_irrefl _)

omit [Hasher] in
/-- The first datagram of all, on the law and on what breaks it. -/
theorem pays_for_window_iff_first :
    let packet := blankPacket 7 flagDataComplete
    @PaysForWindow sha256Hasher ⟨none, 64, true⟩ ReedSolomon.failing [] (new ⟨none, 64, true⟩ ReedSolomon.failing) packet ↔
      ∀ x, ¬ @MovesAlone sha256Hasher ⟨none, 64, true⟩ ReedSolomon.failing []
        (new ⟨none, 64, true⟩ ReedSolomon.failing) packet x := by
  intro packet
  exact @pays_for_window_iff sha256Hasher _ [] ⟨none, 64, true⟩ ReedSolomon.failing [] rfl packet

theorem not_wholeSet_singleton : ¬ WholeSet config rs [packet] slot := by
  intro ⟨f, S, hcard, hS⟩
  have hat : ∀ q ∈ S, ∃ x, Shred.parse packet = .ok x ∧ x.position = q := by
    intro q hq
    have hnow := (Steps.occurs_snoc (i := packet) (Steps.runAll_nil (new config rs))).mp (hS q hq)
    obtain ⟨x, hx, _, _, hpos, _⟩ := hnow.resolve_left Steps.not_occurs_nil
    exact ⟨x, hx.parsed, hpos⟩
  have hsame : ∀ q ∈ S, ∀ r ∈ S, q = r := by
    intro q hq r hr
    obtain ⟨x, hx, rfl⟩ := hat q hq
    obtain ⟨y, hy, rfl⟩ := hat r hr
    rw [Except.ok.inj (hx.symm.trans hy)]
  have hone := Finset.card_le_one.mpr hsame
  omega

omit [Hasher] in
/-- One data shred that closes a run moves the window by itself. -/
theorem one_shred_moves_window : ¬ @PaysForWindow sha256Hasher ⟨none, 64, true⟩ ReedSolomon.failing []
    (new ⟨none, 64, true⟩ ReedSolomon.failing) (blankPacket 7 flagDataComplete) := by
  obtain ⟨d, out, hd, hhigh⟩ := @first_blank_raises sha256Hasher ⟨none, 64, true⟩ ReedSolomon.failing 7 rfl
    (by decide) (by decide)
  intro hpays
  have hraise : (new ⟨none, 64, true⟩ ReedSolomon.failing).highestSlot < d.highestSlot := by
    rw [hhigh]
    show 0 < 7
    decide
  exact @not_wholeSet_singleton sha256Hasher _ _ _ _ (hpays d out (Steps.runAll_singleton_ok.mp hd) hraise)

end Deshredder
end Deshred
