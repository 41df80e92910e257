import Deshred.SlotRuns

/-!
# Two slots that go on the same way

What a slot does next depends on its bits and on the sets it can still emit from.
Slots that agree on these emit the same segments for the same shred.
-/

namespace Deshred
open Runs

namespace SlotState

structure Alike (a b : SlotState) : Prop where
  received : a.received = b.received
  complete : a.complete = b.complete
  consumed : a.consumed = b.consumed
  sets : ∀ f, ¬ a.SetConsumed f → a.setAt f = b.setAt f

variable {a b a' b' : SlotState} {i : ℕ}

theorem Alike.refl (a : SlotState) : Alike a a := ⟨rfl, rfl, rfl, fun _ _ => rfl⟩

theorem Alike.trans {c : SlotState} (h : Alike a b) (h' : Alike b c) : Alike a c where
  received := h.received.trans h'.received
  complete := h.complete.trans h'.complete
  consumed := h.consumed.trans h'.consumed
  sets f hf := (h.sets f hf).trans (h'.sets f (by simpa only [SetConsumed, ← h.consumed] using hf))

theorem Alike.setConsumed_iff (h : Alike a b) (f : ℕ) : a.SetConsumed f ↔ b.SetConsumed f := by
  simp only [SetConsumed, h.consumed]

theorem Alike.symm (h : Alike a b) : Alike b a where
  received := h.received.symm
  complete := h.complete.symm
  consumed := h.consumed.symm
  sets f hf := (h.sets f (by rwa [h.setConsumed_iff])).symm

theorem Alike.shredAt (h : Alike a b) (hi : i ∉ a.consumed.ones) : a.shredAt i = b.shredAt i := by
  have hset : ¬ a.SetConsumed (i - i % 32) := fun hc => hi (hc i (by omega) (by omega))
  simp only [SlotState.shredAt, h.sets _ hset]

theorem Alike.findSegment (h : Alike a b) (i : ℕ) : a.findSegment i = b.findSegment i := by
  have hiff : ∀ s e, a.findSegment i = some (s, e) ↔ b.findSegment i = some (s, e) := by
    intro s e
    simp only [findSegment_iff, Run, h.received, h.complete]
  cases ha : a.findSegment i with
  | some se => exact ((hiff se.1 se.2).mp ha).symm
  | none =>
    cases hb : b.findSegment i with
    | none => rfl
    | some se =>
      have hsome := (hiff se.1 se.2).mpr hb
      rw [ha] at hsome
      contradiction

theorem Alike.segmentOf (h : Alike a b) {s e : ℕ} (hle : s ≤ e)
    (hfree : ∀ j, s ≤ j → j ≤ e → j ∉ a.consumed.ones) : a.segmentOf s e = b.segmentOf s e := by
  have hlast := h.shredAt (hfree e hle le_rfl)
  simp only [SlotState.segmentOf, hlast]
  congr 1
  apply List.flatMap_congr
  intro j hj
  have hj := List.mem_range'_1.mp hj
  rw [h.shredAt (hfree j hj.1 (by omega))]

theorem Alike.tryComplete (h : Alike a b) (ha : Assembling a) (hb : Assembling b) (i : ℕ) :
    ∃ a' b' out, a.tryComplete i = .ok (a', out) ∧ b.tryComplete i = .ok (b', out) ∧ Alike a' b' ∧
      Assembling a' ∧ Assembling b' := by
  unfold SlotState.tryComplete
  rw [← h.consumed, ← h.findSegment i]
  split
  · exact ⟨a, b, [], rfl, rfl, h, ha, hb⟩
  · rename_i hskip
    have hi : i ∉ a.consumed.ones := fun hc => hskip (.inr ((a.consumed.contains_iff i).mpr hc))
    cases hf : a.findSegment i with
    | none => exact ⟨a, b, [], rfl, rfl, h, ha, hb⟩
    | some se =>
      obtain ⟨s, e⟩ := se
      obtain ⟨hrun, hsi, hie⟩ := (a.findSegment_iff i s e).mp hf
      have hrunb : b.Run s e := by
        rw [Run, ← h.received, ← h.complete]
        exact hrun
      have hib : i ∉ b.consumed.ones := by rwa [← h.consumed]
      obtain ⟨a', hoka, hA', hra, hca, hconsa, hsetsa⟩ := emit_ok ha hrun hsi hie hi
      obtain ⟨b', hokb, hB', hrb, hcb, hconsb, hsetsb⟩ := emit_ok hb hrunb hsi hie hib
      have hseg := h.segmentOf hrun.le fun j h1 h2 => ha.run_unconsumed hrun hsi hie hi h1 h2
      rw [← hseg] at hokb
      have hcons : a'.consumed = b'.consumed := by
        apply FixedBits.ext
        rw [hconsa, hconsb, h.consumed]
      refine ⟨a', b', _, hoka, hokb, ⟨?_, ?_, hcons, ?_⟩, hA', hB'⟩
      · rw [hra, hrb, h.received]
      · rw [hca, hcb, h.complete]
      · intro f hf
        -- a set that is still open was freed on neither side
        have hfa : ¬ a.SetConsumed f := by
          intro hc
          apply hf
          intro j h1 h2
          rw [hconsa]
          exact Finset.mem_union_left _ (hc j h1 h2)
        have hkeepa := (hsetsa f).resolve_right fun hg => hf hg.2
        have hkeepb := (hsetsb f).resolve_right fun hg => hf (by simpa only [SetConsumed, hcons] using hg.2)
        rw [setAt, hkeepa, setAt, hkeepb]
        exact h.sets f hfa

theorem Alike.completeAt (h : Alike a b) (ha : Assembling a) (hb : Assembling b) (i : ℕ) :
    ∃ a' b' out, a.completeAt i = .ok (a', out) ∧ b.completeAt i = .ok (b', out) ∧ Alike a' b' ∧
      Assembling a' ∧ Assembling b' := by
  obtain ⟨a₁, b₁, out₁, hoka, hokb, h₁, ha₁, hb₁⟩ := h.tryComplete ha hb i
  simp only [SlotState.completeAt, hoka, hokb]
  rw [← h₁.complete]
  split
  · obtain ⟨a₂, b₂, out₂, hoka₂, hokb₂, h₂, ha₂, hb₂⟩ := h₁.tryComplete ha₁ hb₁ (i + 1)
    exact ⟨a₂, b₂, out₁ ++ out₂, by simp only [hoka₂], by simp only [hokb₂], h₂, ha₂, hb₂⟩
  · exact ⟨a₁, b₁, out₁, rfl, rfl, h₁, ha₁, hb₁⟩

theorem Alike.completeAll (h : Alike a b) (ha : Assembling a) (hb : Assembling b) (fresh : List ℕ) :
    ∃ a' b' out, Steps.runAll SlotState.completeAt a fresh = .ok (a', out) ∧
      Steps.runAll SlotState.completeAt b fresh = .ok (b', out) ∧ Alike a' b' := by
  induction fresh generalizing a b with
  | nil => exact ⟨a, b, [], rfl, rfl, h⟩
  | cons i fresh ih =>
    obtain ⟨a₁, b₁, out₁, hoka, hokb, h₁, ha₁, hb₁⟩ := h.completeAt ha hb i
    obtain ⟨a₂, b₂, out₂, hoka₂, hokb₂, h₂⟩ := ih h₁ ha₁ hb₁
    exact ⟨a₂, b₂, out₁ ++ out₂, Steps.runAll_cons_ok.mpr ⟨a₁, out₁, out₂, hoka, hoka₂, rfl⟩,
      Steps.runAll_cons_ok.mpr ⟨b₁, out₁, out₂, hokb, hokb₂, rfl⟩, h₂⟩

/-! ### Storing -/

/-- Recovery is decided by the set and the decoder. -/
theorem Recovering.unique {f : ℕ} {set set₁ set₂ : FecSet} {rs : Option ReedSolomon} {is₁ is₂ : List ℕ}
    (h₁ : Recovering f set rs set₁ is₁) (h₂ : Recovering f set rs set₂ is₂) : set₁ = set₂ ∧ is₁ = is₂ := by
  cases h₁ with
  | idle h =>
    obtain ⟨rfl, rfl⟩ := h₂.of_idle h
    exact ⟨rfl, rfl⟩
  | failed r set' e hrs hc hok _ =>
    obtain ⟨rfl, _, ⟨_, rfl⟩ | hres⟩ := h₂.of_recover hrs hc hok
    · exact ⟨rfl, rfl⟩
    · contradiction
  | complete r set' is hrs hc hok _ =>
    obtain ⟨rfl, _, ⟨⟨e, hres⟩, _⟩ | hres⟩ := h₂.of_recover hrs hc hok
    · contradiction
    · exact ⟨rfl, Except.ok.inj hres⟩

section
variable [Hasher] {x : Shred} {rs : Option ReedSolomon} {fresh fresh' : List ℕ}

theorem Alike.takesIn (h : Alike a b) (ha : Assembling a) (hx : a.TakesIn x) : b.TakesIn x := by
  have hlive := hx.live_set ha
  refine ⟨?_, fun _ => by rwa [← h.setConsumed_iff], ?_⟩
  · rw [← h.received]
    exact hx.unseen
  · rw [← h.sets _ hlive]
    exact hx.new

/-- A shred its set does not take in changes nothing. -/
theorem Stored.alike_of_refused (h : Stored a x rs a' fresh) (hx : ¬ a.TakesIn x) : fresh = [] ∧ Alike a a' := by
  cases h with
  | dropped _ => exact ⟨rfl, Alike.refl a⟩
  | turnedAway why _ _ _ _ => exact ⟨rfl, rfl, rfl, rfl, fun f _ => (putSet_setAt a x.fecSetIndex f).symm⟩
  | taken a' fresh root set' indexes h => exact absurd h.takesIn hx

theorem Taken.alike {root root' : Hash32} {set₁ set₂ : FecSet} {is₁ is₂ : List ℕ} (h : Alike a b)
    (ha : Taken a x rs a' fresh root set₁ is₁) (hb : Taken b x rs b' fresh' root' set₂ is₂) :
    fresh = fresh' ∧ Alike a' b' := by
  obtain rfl : root = root' := Option.some.inj (ha.accepts.proof.symm.trans hb.accepts.proof)
  have hset := h.sets _ ha.live
  have hreca := ha.recovering
  rw [hset] at hreca
  obtain ⟨rfl, rfl⟩ := hreca.unique hb.recovering
  obtain rfl : fresh = fresh' := ha.fresh_eq.trans hb.fresh_eq.symm
  refine ⟨rfl, ?_, ?_, ?_, ?_⟩
  · apply FixedBits.ext
    ext i
    rw [ha.received, hb.received, h.received]
  · apply FixedBits.ext
    ext i
    rw [ha.complete, hb.complete, h.complete]
  · rw [ha.consumed, hb.consumed, h.consumed]
  · intro f hf
    have hfa : ¬ a.SetConsumed f := by simpa only [SetConsumed, ha.consumed] using hf
    simp only [setAt, ha.sets, hb.sets]
    by_cases hfx : f = x.fecSetIndex
    · rw [hfx, Function.update_self, Function.update_self]
    · rw [Function.update_of_ne hfx, Function.update_of_ne hfx]
      exact h.sets f hfa

theorem Alike.stored (h : Alike a b) (ha : Assembling a) (hb : Assembling b) (hsa : Stored a x rs a' fresh)
    (hsb : Stored b x rs b' fresh') : fresh = fresh' ∧ Alike a' b' := by
  by_cases hx : a.TakesIn x
  · obtain ⟨root, set₁, is₁, ht⟩ := hsa.taken_of_takesIn hx
    obtain ⟨root', set₂, is₂, ht'⟩ := hsb.taken_of_takesIn (h.takesIn ha hx)
    exact ht.alike h ht'
  · obtain ⟨rfl, haa⟩ := hsa.alike_of_refused hx
    obtain ⟨rfl, hbb⟩ := hsb.alike_of_refused fun hy => hx (h.symm.takesIn hb hy)
    exact ⟨rfl, (haa.symm.trans h).trans hbb⟩

theorem Alike.insert (h : Alike a b) (ha : SlotInv a) (hb : SlotInv b) {stats stats' : Stats} {out : List Segment}
    (hok : a.insert x rs stats = .ok (a', stats', out)) (stats₂ : Stats) :
    ∃ b' stats₂', b.insert x rs stats₂ = .ok (b', stats₂', out) ∧ Alike a' b' := by
  have hx := fecSetIndex_of_insert hok
  obtain ⟨mida, s₁, fresha, hstorea, hsa⟩ := store_cases ha.toAssembling hx rs stats
  obtain ⟨midb, s₂, freshb, hstoreb, hsb⟩ := store_cases hb.toAssembling hx rs stats₂
  obtain ⟨rfl, hmid⟩ := h.stored ha.toAssembling hb.toAssembling hsa hsb
  obtain ⟨a₁, b₁, out₁, hruna, hrunb, h₁⟩ :=
    hmid.completeAll (hsa.assembling hx ha.toAssembling) (hsb.assembling hx hb.toAssembling) fresha
  simp only [SlotState.insert, hstorea, hruna, Except.ok.injEq, Prod.mk.injEq] at hok
  obtain ⟨rfl, rfl, rfl⟩ := hok
  exact ⟨b₁, s₂, by simp only [SlotState.insert, hstoreb, hrunb], h₁⟩

theorem insert_refused (ha : SlotInv a) (hx : ¬ a.TakesIn x) {stats stats' : Stats} {out : List Segment}
    (hok : a.insert x rs stats = .ok (a', stats', out)) : out = [] ∧ Alike a a' := by
  obtain ⟨mid, s₁, fresh, hstore, hs⟩ := store_cases ha.toAssembling (fecSetIndex_of_insert hok) rs stats
  obtain ⟨rfl, hmid⟩ := hs.alike_of_refused hx
  simp only [SlotState.insert, hstore, Steps.runAll_nil, Except.ok.injEq, Prod.mk.injEq] at hok
  obtain ⟨rfl, rfl, rfl⟩ := hok
  exact ⟨rfl, hmid⟩

end

end SlotState
end Deshred
