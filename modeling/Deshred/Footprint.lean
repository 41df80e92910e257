import Deshred.Delivery
import Deshred.Traceless

/-!
# What is freed (slot.rs, deshredder.rs)

`try_complete` frees the sets that have nothing left to give. No set that is still held
is one of these, in any state that datagrams lead to.
-/

namespace Deshred
namespace SlotState

theorem consumed_of_setIsConsumed {state : SlotState} {f : ℕ} {b : Bool} (h : state.setIsConsumed f = .ok b) :
    b = true ↔ state.SetConsumed f := by
  by_cases hf : f ≤ 32736
  · obtain ⟨b', hb, hiff⟩ := setIsConsumed_ok state hf
    rw [hb, Except.ok.injEq] at h
    rwa [← h]
  · rw [setIsConsumed_panics (Nat.lt_of_not_le hf)] at h
    contradiction

/- Freeing takes sets away, among them all of the list that were emitted whole. -/
structure Freed (state state' : SlotState) (l : List ℕ) : Prop where
  consumed : state'.consumed = state.consumed
  fewer : ∀ g, state'.sets g ≠ none → state.sets g ≠ none
  gone : ∀ g ∈ l, state.SetConsumed g → state'.sets g = none

theorem freeSets_freed {state state' : SlotState} {l : List ℕ} (h : state.freeSets l = .ok state') :
    Freed state state' l := by
  induction l generalizing state with
  | nil =>
    cases h
    exact ⟨rfl, fun _ h => h, by simp⟩
  | cons f l ih =>
    unfold freeSets at h
    split at h
    · contradiction
    · rename_i hb
      obtain ⟨hcons, hfewer, hgone⟩ := ih h
      have hremoved : (state.removeSet f).sets f = none := Function.update_self ..
      refine ⟨hcons, fun g hg => ?_, fun g hg hc => ?_⟩
      · have hheld := hfewer g hg
        by_cases hgf : g = f
        · rw [hgf, hremoved] at hheld
          contradiction
        · have hsame : (state.removeSet f).sets g = state.sets g := Function.update_of_ne hgf ..
          rwa [hsame] at hheld
      · rcases List.mem_cons.mp hg with rfl | hg
        · by_contra hheld
          exact hfewer g hheld hremoved
        · exact hgone g hg hc
    · rename_i hb
      obtain ⟨hcons, hfewer, hgone⟩ := ih h
      refine ⟨hcons, hfewer, fun g hg hc => ?_⟩
      rcases List.mem_cons.mp hg with rfl | hg
      · exact absurd ((consumed_of_setIsConsumed hb).mpr hc) Bool.false_ne_true
      · exact hgone g hg hc

/-- Every set that is held has an index that was not emitted yet. -/
def Tidy (state : SlotState) : Prop := ∀ f, state.sets f ≠ none → f % 32 = 0 ∧ ¬ state.SetConsumed f

theorem Tidy.empty : Tidy SlotState.empty := fun _ h => absurd rfl h

/-- The sets that `emit` looks at are those its run touches, so no other set can have
become one that was emitted whole. -/
theorem Tidy.emit {state state' : SlotState} (hT : Tidy state) {s e : ℕ} (hse : s ≤ e) {out : List Segment}
    (h : state.emit s e = .ok (state', out)) : Tidy state' := by
  unfold SlotState.emit at h
  split at h
  · contradiction
  · split at h
    · contradiction
    · split at h
      · contradiction
      · rename_i consumed hins
        dsimp only at h
        split at h
        · contradiction
        · rename_i after hfree
          cases h
          have hones : consumed.ones = state.consumed.ones ∪ Finset.Ico s (e + 1) := by
            simp only [FixedBits.insertRange] at hins
            split at hins
            · cases hins
              rfl
            · contradiction
          obtain ⟨hcons, hfewer, hgone⟩ := freeSets_freed hfree
          intro f hf
          obtain ⟨hmod, hlive⟩ := hT f (hfewer f hf)
          refine ⟨hmod, fun hdead => ?_⟩
          have hdead' : ∀ j, f ≤ j → j < f + 32 → j ∈ consumed.ones := by
            intro j h1 h2
            have hj := hdead j h1 h2
            rwa [hcons] at hj
          -- an index of the set that this run emitted
          have hnew : ∃ j, f ≤ j ∧ j < f + 32 ∧ s ≤ j ∧ j ≤ e := by
            by_contra hno
            refine hlive fun j h1 h2 => ?_
            have hj := hdead' j h1 h2
            rw [hones, Finset.mem_union, Finset.mem_Ico] at hj
            rcases hj with hj | hj
            · exact hj
            · exact absurd ⟨j, h1, h2, hj.1, Nat.le_of_lt_succ hj.2⟩ hno
          obtain ⟨j, h1, h2, h3, h4⟩ := hnew
          refine hf (hgone f ?_ hdead')
          refine List.mem_range'.mpr ⟨(f - (s - s % 32)) / 32, ?_, ?_⟩
          · simp only [dataShredsPerFecSet]
            omega
          · simp only [dataShredsPerFecSet]
            omega

theorem Tidy.tryComplete {state state' : SlotState} (hT : Tidy state) {i : ℕ} {out : List Segment}
    (h : state.tryComplete i = .ok (state', out)) : Tidy state' := by
  unfold SlotState.tryComplete at h
  split at h
  · cases h
    exact hT
  · split at h
    · cases h
      exact hT
    · rename_i s e hseg
      exact hT.emit ((findSegment_iff state i s e).mp hseg).1.le h

theorem Tidy.completeAt {state state' : SlotState} (hT : Tidy state) {i : ℕ} {out : List Segment}
    (h : state.completeAt i = .ok (state', out)) : Tidy state' := by
  unfold SlotState.completeAt at h
  split at h
  · contradiction
  · rename_i after out₁ hfirst
    split at h
    · split at h
      · contradiction
      · rename_i hsecond
        cases h
        exact (hT.tryComplete hfirst).tryComplete hsecond
    · cases h
      exact hT.tryComplete hfirst

variable [Hasher]

/-- A shred never brings back a set that was emitted whole. -/
theorem Stored.tidy {state mid : SlotState} {x : Shred} {rs : Option ReedSolomon} {fresh : List ℕ} (hA : Assembling state)
    (hT : Tidy state) (h : Stored state x rs mid fresh) : Tidy mid := by
  have haligned : x.fecSetIndex % 32 = 0 := x.valid.aligned
  cases h with
  | dropped h => exact hT
  | turnedAway why hwhy hseen hlive h =>
    intro f hf
    by_cases hfx : f = x.fecSetIndex
    · rw [hfx]
      refine ⟨haligned, ?_⟩
      cases hk : x.kind with
      | data => exact not_consumed_of_unseen hA hk (hseen hk)
      | code => exact hlive hk
    · have hsame : (state.putSet x.fecSetIndex (state.setAt x.fecSetIndex)).sets f = state.sets f :=
        Function.update_of_ne hfx ..
      rw [hsame] at hf
      exact hT f hf
  | taken _ _ root set' indexes h =>
    intro f hf
    have hsame : mid.SetConsumed f ↔ state.SetConsumed f := by simp only [SetConsumed, h.consumed]
    rw [hsame]
    by_cases hfx : f = x.fecSetIndex
    · rw [hfx]
      exact ⟨haligned, h.live⟩
    · rw [h.sets, Function.update_of_ne hfx] at hf
      exact hT f hf

theorem Tidy.insert {state state' : SlotState} {x : Shred} {rs : Option ReedSolomon} {stats stats' : Stats}
    {out : List Segment} (hI : SlotInv state) (hT : Tidy state)
    (h : state.insert x rs stats = .ok (state', stats', out)) : Tidy state' := by
  obtain ⟨mid, stats₁, fresh, hstore, hstored⟩ := store_cases hI.toAssembling (fecSetIndex_of_insert h) rs stats
  have hmid := hstored.tidy hI.toAssembling hT
  unfold SlotState.insert at h
  rw [hstore] at h
  dsimp only at h
  split at h
  · contradiction
  · rename_i hrun
    cases h
    exact Steps.runAll_induct (P := fun _ state _ => Tidy state) hmid
      (fun is s os i s' out _ hT hstep => hT.completeAt hstep) hrun

end SlotState

namespace Deshredder
variable [Hasher] {d d' : Deshredder} {packet : Bytes} {out : List RawBatch}

/- Every slot that is held is tidy. -/
def Tidy (d : Deshredder) : Prop := ∀ t state, d.slots.find t = some state → state.Tidy

theorem Tidy.pushed (hS : SlotsInv d) (hT : Tidy d) (hp : Pushed d packet d' out) : Tidy d' := by
  cases hp with
  | dropped stats _ => exact hT
  | inserted x state stats stats' segments _ hins =>
    have hslot : (d.slotState x.slot).Tidy := by
      unfold Deshredder.slotState
      cases hf : d.slots.find x.slot with
      | none => exact SlotState.Tidy.empty
      | some state => exact hT x.slot state hf
    intro t after hf
    rcases d.settle_find x.slot state stats' segments t with heq | heq
    · rw [heq] at hf
      by_cases ht : t = x.slot
      · rw [ht, OrdMap.insert_find_self, Option.some.injEq] at hf
        rw [← hf]
        exact hslot.insert (hS.slotState x.slot) hins
      · rw [OrdMap.insert_find_ne _ _ ht] at hf
        exact hT t after hf
    · rw [heq] at hf
      contradiction

/-- Nothing that is of no use is kept: at most `4 * slot_lookback` slots are held, and
every set in them has a data shred that was not handed out yet. -/
theorem no_dead_sets (config : Config) (rs : ReedSolomon) {packets : List Bytes}
    (h : (new config rs).pushAll packets = .ok (d, out)) :
    d.slots.size ≤ wrappingMul 4 config.slotLookback ∧
      ∀ t state, d.slots.find t = some state → ∀ f set, state.sets f = some set →
        f % 32 = 0 ∧ f ≤ 32736 ∧ ∃ j, f ≤ j ∧ j < f + 32 ∧ j ∉ state.consumed.ones := by
  have hall : Settled d ∧ Tidy d := by
    refine Steps.runAll_induct (P := fun _ d (_ : List RawBatch) => Settled d ∧ Tidy d)
      ⟨Settled.new config rs, fun t state hf => by simp [new] at hf⟩ ?_ h
    intro is d os b d' o _ hP hstep
    have hp := pushRaw_cases hstep
    exact ⟨hP.1.pushed hp, hP.2.pushed hP.1.slots hp⟩
  refine ⟨?_, fun t state hf f set hset => ?_⟩
  · rw [← pushAll_config h]
    exact hall.1.size
  · obtain ⟨hmod, hlive⟩ := hall.2 t state hf f (by rw [hset]; exact Option.some_ne_none _)
    refine ⟨hmod, ((hall.1.slots t state hf).keyed f set hset).2.1, ?_⟩
    by_contra hno
    simp only [not_exists, not_and, not_not] at hno
    exact hlive hno

omit [Hasher] in
/-- The first set of the sample block was recovered and handed out, and is held no more. -/
theorem no_dead_sets_freed :
    let : Hasher := sha256Hasher
    ∃ d out state, (new ⟨none, 64, true⟩ (carriedRs 7 [])).pushAll (carriedPlaces.map (carriedPacket sampleSlot_lt nil_fits)) =
        .ok (d, out) ∧
      d.slots.size ≤ 256 ∧ d.slots.find 7 = some state ∧ state.SetConsumed 0 ∧ state.sets 0 = none := by
  let : Hasher := sha256Hasher
  intro _
  obtain ⟨d, out, hrun, hD⟩ := carried_delivering sampleSlot_lt nil_fits (by decide) true (secondPlaces_sets 0)
  have hconsumed := hD.carried_consumed sampleSlot_lt nil_fits
  obtain ⟨hsize, hlive⟩ := no_dead_sets ⟨none, 64, true⟩ (carriedRs 7 []) hrun
  have hheld : d.slots.find 7 = some (d.slotState 7) := by
    cases hf : d.slots.find 7 with
    | some state => rw [slotState, hf, Option.getD_some]
    | none =>
      have hzero := hconsumed 0 le_rfl (by decide)
      rw [slotState, hf] at hzero
      simp [SlotState.empty] at hzero
  refine ⟨d, out, _, hrun, hsize, hheld, hconsumed, ?_⟩
  cases hset : (d.slotState 7).sets 0 with
  | none => rfl
  | some set =>
    obtain ⟨_, _, j, hle, hlt, hj⟩ := hlive 7 _ hheld 0 set hset
    exact absurd (hconsumed j hle hlt) hj

end Deshredder
end Deshred
