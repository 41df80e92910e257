import Deshred.SlotInsert
import Deshred.Wire

/-!
# Runs of `SlotState::insert`

Over any sequence of calls the emitted segments are exactly the complete runs, each
once.
-/

namespace Deshred
open Runs

namespace SlotState
variable [Hasher] {state state' mid : SlotState} {x : Shred} {rs : Option ReedSolomon} {fresh : List ℕ}
  {out : List Segment}

theorem Inserted.marks (h : Inserted state x rs mid fresh state' out) (hI : SlotInv state) :
    Marks state mid fresh := h.stored.marks hI.toAssembling

theorem Inserted.consumed_iff (h : Inserted state x rs mid fresh state' out) (hI : SlotInv state) (j : ℕ) :
    j ∈ state'.consumed.ones ↔ j ∈ state.consumed.ones ∨ ∃ seg ∈ out, seg.shreds.1 ≤ j ∧ j ≤ seg.shreds.2 := by
  rw [h.consumed, (h.marks hI).consumed]

theorem Inserted.unconsumed (h : Inserted state x rs mid fresh state' out) (hI : SlotInv state)
    (hx : x.fecSetIndex ≤ 32736) {seg : Segment} (hseg : seg ∈ out) {j : ℕ} (h1 : seg.shreds.1 ≤ j)
    (h2 : j ≤ seg.shreds.2) : j ∉ state.consumed.ones := by
  obtain ⟨hrun, hstart, _⟩ := h.segments seg hseg
  rw [← (h.marks hI).consumed]
  exact (h.stored.assembling hx hI.toAssembling).run_unconsumed hrun le_rfl hrun.le hstart h1 h2

theorem Inserted.segments_disjoint (h : Inserted state x rs mid fresh state' out) :
    out.Pairwise fun a b => Disjoint (Finset.Icc a.shreds.1 a.shreds.2) (Finset.Icc b.shreds.1 b.shreds.2) := by
  have hnd : out.Pairwise fun a b => a.shreds ≠ b.shreds := List.pairwise_map.mp h.nodup
  refine hnd.imp_of_mem fun {a b} ha hb hne => ?_
  rw [Finset.disjoint_left]
  intro i hia hib
  have hia := Finset.mem_Icc.mp hia
  have hib := Finset.mem_Icc.mp hib
  have hu := (h.segments a ha).1.unique (h.segments b hb).1 hia.1 hia.2 hib.1 hib.2
  exact hne (Prod.ext hu.1 hu.2)

/- One call, with the counters as part of the state. -/
def insertStep (s : SlotState × Stats) (input : Shred × Option ReedSolomon) :
    Except Panic ((SlotState × Stats) × List Segment) :=
  match s.1.insert input.1 input.2 s.2 with
  | .error p => .error p
  | .ok (state, stats, out) => .ok ((state, stats), out)

/-- A sequence of calls on a fresh slot. -/
def insertAll (stats : Stats) (inputs : List (Shred × Option ReedSolomon)) :
    Except Panic ((SlotState × Stats) × List Segment) :=
  Steps.runAll insertStep (SlotState.empty, stats) inputs

theorem insertStep_ok {s s' : SlotState × Stats} {input : Shred × Option ReedSolomon} :
    insertStep s input = .ok (s', out) ↔ s.1.insert input.1 input.2 s.2 = .ok (s'.1, s'.2, out) := by
  unfold insertStep
  cases h : s.1.insert input.1 input.2 s.2 with
  | error p => simp
  | ok r =>
    obtain ⟨state₁, stats₁, out₁⟩ := r
    obtain ⟨state₂, stats₂⟩ := s'
    simp [Prod.ext_iff, and_assoc]

/- The set indexes a data shred can have. -/
def IndexesInRange (inputs : List (Shred × Option ReedSolomon)) : Prop :=
  ∀ i ∈ inputs, i.1.fecSetIndex ≤ 32736

theorem insertAll_total (stats : Stats) {inputs : List (Shred × Option ReedSolomon)}
    (h : IndexesInRange inputs) :
    ∃ s out, insertAll stats inputs = .ok (s, out) ∧ s.1.SlotInv := by
  refine Steps.runAll_total (I := fun s : SlotState × Stats => s.1.SlotInv)
    (Q := fun i : Shred × Option ReedSolomon => i.1.fecSetIndex ≤ 32736) SlotInv.empty ?_ inputs h
  intro s i hI hi
  obtain ⟨_, _, state', stats', out, _, hok, hI', _⟩ := insert_cases hI hi i.2 s.2
  exact ⟨(state', stats'), out, insertStep_ok.mpr hok, hI'⟩

/-- A sequence of calls returns unless it holds a code shred past the last set. -/
theorem insertAll_returns_iff (stats : Stats) (inputs : List (Shred × Option ReedSolomon)) :
    (∃ r, insertAll stats inputs = .ok r) ↔ ∀ i ∈ inputs, i.1.kind = .code → i.1.fecSetIndex ≤ 32736 := by
  constructor
  · intro ⟨⟨s, out⟩, h⟩
    have hall : IndexesInRange inputs := by
      refine Steps.runAll_induct (P := fun is (_ : SlotState × Stats) (_ : List Segment) => IndexesInRange is)
        (by simp [IndexesInRange]) ?_ h
      intro is s os i s' out _ hP hstep j hj
      rcases List.mem_append.mp hj with hj | hj
      · exact hP j hj
      · rw [List.mem_singleton.mp hj]
        exact fecSetIndex_of_insert (insertStep_ok.mp hstep)
    exact fun i hi _ => hall i hi
  · intro h
    have hall : IndexesInRange inputs := by
      intro i hi
      cases hk : i.1.kind with
      | data =>
        obtain ⟨p, hp⟩ := i.1.exists_position_data hk
        exact (i.1.position_data hp).2.2.1
      | code => exact h i hi hk
    obtain ⟨s, out, hok, _⟩ := insertAll_total stats hall
    exact ⟨_, hok⟩

theorem insertAll_inv {stats : Stats} {inputs : List (Shred × Option ReedSolomon)}
    {s : SlotState × Stats} (h : insertAll stats inputs = .ok (s, out)) : s.1.SlotInv := by
  refine Steps.runAll_induct (P := fun _ (s : SlotState × Stats) (_ : List Segment) => s.1.SlotInv)
    SlotInv.empty ?_ h
  intro is s os i s' out _ hI hstep
  have hok := insertStep_ok.mp hstep
  exact (insert_spec hI (fecSetIndex_of_insert hok) hok).1

/- A segment of a run: the call that emitted it stored its shred in `mid`, which held
the shreds the segment is made of. -/
def EmittedFrom (stats : Stats) (inputs : List (Shred × Option ReedSolomon)) (seg : Segment) : Prop :=
  ∃ before input after s os s' outs mid fresh stats', inputs = before ++ input :: after ∧
    insertAll stats before = .ok (s, os) ∧ insertStep s input = .ok (s', outs) ∧ seg ∈ outs ∧
    s.1.store input.1 input.2 s.2 = .ok (mid, stats', fresh) ∧
    (∀ j, seg.shreds.1 ≤ j → j ≤ seg.shreds.2 → ∃ x, mid.data j = .ok x) ∧
    seg = mid.segmentOf seg.shreds.1 seg.shreds.2

theorem EmittedFrom.append {stats : Stats} {inputs : List (Shred × Option ReedSolomon)} {seg : Segment}
    (h : EmittedFrom stats inputs seg) (more : List (Shred × Option ReedSolomon)) :
    EmittedFrom stats (inputs ++ more) seg := by
  obtain ⟨before, input, after, s, os, s', outs, mid, fresh, stats', rfl, hrest⟩ := h
  exact ⟨before, input, after ++ more, s, os, s', outs, mid, fresh, stats', by simp, hrest⟩

/-- The bookkeeping of a whole run of calls. -/
structure RunInv (stats : Stats) (inputs : List (Shred × Option ReedSolomon)) (s : SlotState × Stats)
    (out : List Segment) : Prop where
  inv : s.1.SlotInv
  lists : Lists s.1.received.ones s.1.complete.ones (out.map Segment.shreds)
  consumed : ∀ j, j ∈ s.1.consumed.ones ↔ ∃ seg ∈ out, seg.shreds.1 ≤ j ∧ j ≤ seg.shreds.2
  emitted : ∀ seg ∈ out, EmittedFrom stats inputs seg

theorem RunInv.empty (stats : Stats) : RunInv stats [] (SlotState.empty, stats) [] where
  inv := SlotInv.empty
  lists := Lists.nil
  consumed := by simp [SlotState.empty]
  emitted := by simp

theorem RunInv.insert {stats : Stats} {inputs : List (Shred × Option ReedSolomon)} {s s' : SlotState × Stats}
    {os : List Segment} {input : Shred × Option ReedSolomon} (hrun : insertAll stats inputs = .ok (s, os))
    (h : RunInv stats inputs s os) (hstep : insertStep s input = .ok (s', out)) :
    RunInv stats (inputs ++ [input]) s' (os ++ out) := by
  have hok := insertStep_ok.mp hstep
  have hx := fecSetIndex_of_insert hok
  obtain ⟨hI', mid, fresh, hstore, hins⟩ := insert_spec h.inv hx hok
  have hmarks := hins.marks h.inv
  have hmid := hins.stored.assembling hx h.inv.toAssembling
  refine ⟨hI', ?_, ?_, ?_⟩
  · rw [List.map_append, hins.received, hins.complete]
    refine h.lists.append ?_ hmarks.complete_mono hmarks.complete_old hins.nodup hins.out_iff
    exact fun i hi => (hmarks.received i).mpr (.inl hi)
  · intro j
    rw [hins.consumed_iff h.inv, h.consumed]
    simp only [List.mem_append]
    constructor
    · intro h
      rcases h with ⟨seg, hseg, hj⟩ | ⟨seg, hseg, hj⟩
      · exact ⟨seg, .inl hseg, hj⟩
      · exact ⟨seg, .inr hseg, hj⟩
    · rintro ⟨seg, hseg | hseg, hj⟩
      · exact .inl ⟨seg, hseg, hj⟩
      · exact .inr ⟨seg, hseg, hj⟩
  · intro seg hseg
    rcases List.mem_append.mp hseg with hseg | hseg
    · exact (h.emitted seg hseg).append [input]
    · obtain ⟨hr, hstart, heq⟩ := hins.segments seg hseg
      refine ⟨inputs, input, [], s, os, s', out, mid, fresh, s'.2, rfl, hrun, hstep, hseg, hstore, ?_, heq⟩
      intro j h1 h2
      have hfree := hmid.run_unconsumed hr le_rfl hr.le hstart h1 h2
      obtain ⟨y, hy, _⟩ := hmid.shred_of_unconsumed (hr.present j h1 h2) hfree
      exact ⟨y, data_of_shredAt hy⟩

theorem runInv {stats : Stats} {inputs : List (Shred × Option ReedSolomon)} {s : SlotState × Stats}
    (h : insertAll stats inputs = .ok (s, out)) : RunInv stats inputs s out :=
  Steps.runAll_induct (P := RunInv stats) (RunInv.empty stats)
    (fun _ _ _ _ _ _ hrun hP hstep => RunInv.insert hrun hP hstep) h

end SlotState
end Deshred
