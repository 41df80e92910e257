import Deshred.Alike
import Deshred.Codeword
import Deshred.Genuine
import Deshred.LeaderSlot

/-!
# Forged shreds in a leader's slot

Once the first shred of a set is genuine, the set takes in genuine shreds only. So
the slot emits what it would emit if nothing else had been passed to it.
-/

namespace Deshred
open SlotState

namespace Block

/-- The shred has the leader's bytes up to the end of the proof. -/
def genuine (B : Block) (x : Shred) : Bool := (B x.fecSetIndex).any fun S =>
  x.bytes.take (S.shred x.position).proofEnd = (S.shred x.position).bytes.take (S.shred x.position).proofEnd

theorem genuine_iff {B : Block} {x : Shred} : B.genuine x = true ↔ ∃ S, B x.fecSetIndex = some S ∧
    Shred.Agrees (S.shred x.position) x (S.shred x.position).proofEnd := by
  cases hB : B x.fecSetIndex with
  | none => simp [genuine, hB]
  | some S => simp [genuine, hB, Shred.Agrees]

def Committed [Hasher] (B : Block) (Codeword : List Bytes → Prop) (slot : ℕ) : Prop :=
  ∀ f S, B f = some S → S.Committed Codeword slot f

/- The hash inputs evaluated for the block and for the shreds that arrive. -/
def Evaluated [Hasher] (B : Block) (inputs : List (Shred × Option ReedSolomon)) (b : Bytes) : Prop :=
  (∃ f S, B f = some S ∧ S.treeInputs b) ∨ ∃ i ∈ inputs, i.1.rootInputs b

/-- `[s, e]` is one of the leader's runs. -/
structure LeaderRun (B : Block) (s e : ℕ) : Prop where
  le : s ≤ e
  sent : ∀ i, s ≤ i → i ≤ e → (B.shredAt i).isSome
  closed : B.Closes e
  inner : ∀ i, s ≤ i → i < e → ¬ B.Closes i
  starts : s = 0 ∨ B.Closes (s - 1)

end Block

namespace SlotState
variable [Hasher] {stats : Stats} {inputs : List (Shred × Option ReedSolomon)} {input : Shred × Option ReedSolomon}
  {s s' : SlotState × Stats} {out os : List Segment} {f : ℕ}

/- Set `f` returned `New` for a shred of the sequence. -/
def AcceptedIn (stats : Stats) (inputs : List (Shred × Option ReedSolomon)) (f : ℕ) : Prop :=
  Steps.Occurs insertStep (SlotState.empty, stats)
    (fun s input => input.1.fecSetIndex = f ∧ s.1.TakesIn input.1) inputs

/-- In every set, the first shred it returns `New` for is genuine. -/
def FirstGenuine (B : Block) (stats : Stats) (inputs : List (Shred × Option ReedSolomon)) : Prop :=
  ∀ before input after s os, inputs = before ++ input :: after → insertAll stats before = .ok (s, os) →
    s.1.TakesIn input.1 → ¬ AcceptedIn stats before input.1.fecSetIndex → B.genuine input.1 = true

theorem FirstGenuine.init {B : Block} (h : FirstGenuine B stats (inputs ++ [input])) : FirstGenuine B stats inputs := by
  intro before i after s os heq
  exact h before i (after ++ [input]) s os (by simp [heq])

/-! ### What the slot holds -/

/-- The sets a shred was accepted in are under the leader's root, and all they hold is
the leader's. -/
structure Guarded (B : Block) (accepted : ℕ → Prop) (state : SlotState) : Prop where
  root : ∀ f, accepted f → ¬ state.SetConsumed f → ∃ S, B f = some S ∧
    (state.setAt f).root = some S.tree.root ∧ (state.setAt f).signature = (S.data 0).signature
  loyal : ∀ f, ¬ state.SetConsumed f → ∀ q y, (state.setAt f).held q = some y →
    ∃ S, B f = some S ∧ Shred.Agrees (S.shred q) y (S.shred q).erasureEnd
  sent : ∀ i ∈ state.received.ones, (B.shredAt i).isSome
  closes : ∀ i ∈ state.received.ones, i ∈ state.complete.ones ↔ B.Closes i

variable {B : Block} {accepted : ℕ → Prop} {state mid : SlotState} {x : Shred} {rs : Option ReedSolomon}
  {fresh : List ℕ} {Codeword : List Bytes → Prop} {slot : ℕ}

theorem Guarded.empty : Guarded B (fun _ => False) SlotState.empty where
  root := by simp
  loyal f _ q y hy := by cases q <;> contradiction
  sent := by simp [SlotState.empty]
  closes := by simp [SlotState.empty]

theorem Guarded.loyal_set (h : Guarded B accepted state) {S : LeaderSet} (hB : B f = some S)
    (hf : ¬ state.SetConsumed f) : S.Loyal (state.setAt f) := by
  intro q y hy
  obtain ⟨S', hS', hag⟩ := h.loyal f hf q y hy
  obtain rfl : S' = S := Option.some.inj (hS'.symm.trans hB)
  exact hag

/-- A set that is under the leader's root takes in what leads to that root. -/
theorem Guarded.genuine_of_takesIn (hI : state.Assembling) (h : Guarded B accepted state) (hx : state.TakesIn x)
    (hpins : ∀ S, B x.fecSetIndex = some S → x.merkleRoot = some S.tree.root → x.signature = (S.data 0).signature →
      Shred.Agrees (S.shred x.position) x (S.shred x.position).proofEnd)
    (hfirst : ¬ accepted x.fecSetIndex → B.genuine x = true) : B.genuine x = true := by
  by_cases hacc : accepted x.fecSetIndex
  · obtain ⟨S, hB, hroot, hsig⟩ := h.root _ hacc (hx.live_set hI)
    obtain ⟨root, haccepts⟩ := ((state.setAt x.fecSetIndex).insert_new_iff x).mp hx.new
    rcases haccepts.agrees with hnone | ⟨hsame, hsigs⟩
    · rw [hroot] at hnone
      contradiction
    · rw [hroot, Option.some.injEq] at hsame
      exact Block.genuine_iff.mpr ⟨S, hB, hpins S hB (by rw [hsame, haccepts.proof]) (by rw [← hsigs, hsig])⟩
  · exact hfirst hacc

/-- A set that took in a genuine shred is the leader's, whatever recovery did. -/
theorem Taken.loyal {root : Hash32} {set' : FecSet} {indexes : List ℕ} {S : LeaderSet}
    (ht : Taken state x rs mid fresh root set' indexes) (hI : state.Assembling) (h : Guarded B accepted state)
    (hB : B x.fecSetIndex = some S) (hS : S.Committed Codeword slot x.fecSetIndex)
    (hrs : ∀ r, rs = some r → r.Rebuilds Codeword)
    (hx : Shred.Agrees (S.shred x.position) x (S.shred x.position).proofEnd) :
    S.Loyal set' ∧ set'.root = some S.tree.root ∧ set'.signature = (S.data 0).signature := by
  obtain ⟨hroot, hsig⟩ := hx.sealed
  rw [hS.merkleRoot] at hroot
  obtain rfl : root = S.tree.root := Option.some.inj (ht.accepts.proof.symm.trans hroot)
  have hacc : S.Loyal ((state.setAt x.fecSetIndex).accepted x S.tree.root) :=
    (h.loyal_set hB ht.live).accepted ht.accepts.needed hx
  have hIacc := (hI.setAt_inv x.fecSetIndex).accepted rfl ht.accepts
  have hsigacc : ((state.setAt x.fecSetIndex).accepted x S.tree.root).signature = (S.data 0).signature := by
    rw [FecSet.accepted_signature, hsig, hS.signature]
  obtain ⟨hkr, hks⟩ := ht.recovering.root_signature
  refine ⟨?_, by rw [hkr, FecSet.accepted_root], by rw [hks, hsigacc]⟩
  cases ht.recovering with
  | idle _ => exact hacc
  | failed r set' e hr hc hok _ => exact hacc.recovered hS hIacc hsigacc hc (hrs r hr) hok
  | complete r set' indexes hr hc hok _ => exact hacc.recovered hS hIacc hsigacc hc (hrs r hr) hok

theorem Guarded.taken {root : Hash32} {set' : FecSet} {indexes : List ℕ} (hI : state.Assembling)
    (h : Guarded B accepted state) (hB : B.Committed Codeword slot)
    (hrs : ∀ r, rs = some r → r.Rebuilds Codeword) (hx : B.genuine x = true)
    (ht : Taken state x rs mid fresh root set' indexes) :
    Guarded B (fun f => accepted f ∨ x.fecSetIndex = f) mid := by
  obtain ⟨S, hBx, hag⟩ := Block.genuine_iff.mp hx
  have hS := hB _ S hBx
  obtain ⟨hloyal, hroot, hsig⟩ := ht.loyal hI h hBx hS hrs hag
  have ha := x.valid.aligned
  have hset : mid.setAt x.fecSetIndex = set' := ht.setAt_same
  have hother : ∀ f, f ≠ x.fecSetIndex → mid.setAt f = state.setAt f := fun f hf =>
    (Stored.taken mid fresh root set' indexes ht).setAt_other hf
  have hcons : ∀ f, mid.SetConsumed f ↔ state.SetConsumed f := fun f => by simp only [SetConsumed, ht.consumed]
  have hfresh : ∀ i ∈ fresh, ∃ p : Fin 32, i = x.fecSetIndex + p ∧ B.shredAt i = some (S.data p) := by
    intro i hi
    obtain ⟨p, heq, _⟩ := ht.fresh_at i hi
    exact ⟨p, heq, by rw [heq, Block.shredAt_add hBx ha]⟩
  refine ⟨?_, ?_, ?_, ?_⟩
  · intro f hf hlive
    by_cases hfx : f = x.fecSetIndex
    · rw [hfx, hset]
      exact ⟨S, hBx, hroot, hsig⟩
    · rw [hother f hfx]
      rw [hcons] at hlive
      exact h.root f (hf.resolve_right fun he => hfx he.symm) hlive
  · intro f hlive q y hy
    by_cases hfx : f = x.fecSetIndex
    · rw [hfx, hset] at hy
      rw [hfx]
      exact ⟨S, hBx, hloyal q y hy⟩
    · rw [hother f hfx] at hy
      rw [hcons] at hlive
      exact h.loyal f hlive q y hy
  · intro i hi
    rcases (ht.received i).mp hi with hold | hnew
    · exact h.sent i hold
    · obtain ⟨p, _, hp⟩ := hfresh i hnew
      simp [hp]
  · intro i hi
    rcases (ht.received i).mp hi with hold | hnew
    · rw [ht.complete_old hI hold]
      exact h.closes i hold
    · obtain ⟨p, heq, hp⟩ := hfresh i hnew
      obtain ⟨p', heq', _, hsome⟩ := ht.fresh_at i hnew
      obtain rfl : p' = p := Fin.ext (by omega)
      obtain ⟨y, hy⟩ := Option.isSome_iff_exists.mp hsome
      have htwin := (hloyal (.data p') y hy).twin
      have hdc : y.dataComplete = (S.data p').dataComplete := htwin.dataComplete
      rw [Block.Closes, hp, Option.any_some, ← hdc, ht.complete]
      constructor
      · intro h
        rcases h with hc | ⟨_, r, z, hr, hz, hzdc⟩
        · exact absurd (hI.complete_received hc) (ht.fresh_unseen hI i hnew)
        · obtain rfl : r = p' := Fin.ext (by omega)
          rw [hy, Option.some.injEq] at hz
          rw [hz]
          exact hzdc
      · exact fun hyd => .inr ⟨hnew, p', y, heq, hy, hyd⟩

theorem Guarded.mono {accepted' : ℕ → Prop} (h : Guarded B accepted state)
    (hsub : ∀ f, accepted' f → accepted f) : Guarded B accepted' state :=
  ⟨fun f hf => h.root f (hsub f hf), h.loyal, h.sent, h.closes⟩

theorem Guarded.alike {b : SlotState} (h : Guarded B accepted state) (hab : Alike state b) : Guarded B accepted b := by
  refine ⟨?_, ?_, ?_, ?_⟩
  · intro f hf hlive
    rw [← hab.setConsumed_iff] at hlive
    rw [← hab.sets f hlive]
    exact h.root f hf hlive
  · intro f hlive
    rw [← hab.setConsumed_iff] at hlive
    rw [← hab.sets f hlive]
    exact h.loyal f hlive
  · rw [← hab.received]
    exact h.sent
  · rw [← hab.received, ← hab.complete]
    exact h.closes

theorem Guarded.emitting {st : SlotState} (h : Guarded B accepted mid) (hE : Emitting mid st out) :
    Guarded B accepted st := by
  have hopen : ∀ f, ¬ st.SetConsumed f → ¬ mid.SetConsumed f ∧ st.setAt f = mid.setAt f := by
    intro f hf
    refine ⟨fun hc => hf fun j h1 h2 => (hE.consumed j).mpr (.inl (hc j h1 h2)), ?_⟩
    have hkeep := (hE.sets f).resolve_right fun hg => hf hg.2
    rw [setAt, hkeep, setAt]
  refine ⟨?_, ?_, ?_, ?_⟩
  · intro f hf hlive
    rw [(hopen f hlive).2]
    exact h.root f hf (hopen f hlive).1
  · intro f hlive
    rw [(hopen f hlive).2]
    exact h.loyal f (hopen f hlive).1
  · rw [hE.received]
    exact h.sent
  · rw [hE.received, hE.complete]
    exact h.closes

/-- What is emitted from a guarded slot is one of the leader's runs, with the
leader's bytes. -/
theorem Guarded.segment (hI : mid.Assembling) (h : Guarded B accepted mid) {s e : ℕ} (hr : mid.Run s e)
    (hs : s ∉ mid.consumed.ones) : B.LeaderRun s e ∧ mid.segmentOf s e = B.segment s e := by
  have hcl : ∀ i, i ∈ mid.complete.ones → B.Closes i := fun i hc =>
    (h.closes i (hI.complete_received hc)).mp hc
  refine ⟨⟨hr.le, fun i h1 h2 => h.sent i (hr.present i h1 h2), hcl e hr.closed, ?_, hr.starts.imp id (hcl _)⟩, ?_⟩
  · intro i h1 h2 hc
    exact hr.inner i h1 h2 ((h.closes i (hr.present i h1 (by omega))).mpr hc)
  apply Block.segment_of_twins hr.le
  intro i h1 h2
  have hfree := hI.run_unconsumed hr le_rfl hr.le hs h1 h2
  obtain ⟨y, hy, _⟩ := hI.shred_of_unconsumed (hr.present i h1 h2) hfree
  have hlive : ¬ mid.SetConsumed (i - i % 32) := fun hc => hfree (hc i (by omega) (by omega))
  obtain ⟨S, hB, hag⟩ := h.loyal _ hlive (.data (Block.place i)) y hy
  exact ⟨y, S.data (Block.place i), hy, by rw [Block.shredAt, hB, Option.map_some], hag.twin⟩

/-! ### Two runs -/

/- The genuine shreds of a sequence. -/
def genuineInputs (B : Block) (inputs : List (Shred × Option ReedSolomon)) : List (Shred × Option ReedSolomon) :=
  inputs.filter fun i => B.genuine i.1

/- What holds after any sequence of calls, next to the calls on its genuine shreds. -/
structure Unmoved (B : Block) (stats : Stats) (inputs : List (Shred × Option ReedSolomon)) (s : SlotState × Stats)
    (out : List Segment) : Prop where
  guarded : Guarded B (AcceptedIn stats inputs) s.1
  same : ∃ s', insertAll stats (genuineInputs B inputs) = .ok (s', out) ∧ Alike s.1 s'.1
  leader : ∀ seg ∈ out, B.LeaderRun seg.shreds.1 seg.shreds.2 ∧ seg = B.segment seg.shreds.1 seg.shreds.2

theorem Unmoved.insert (hB : B.Committed Codeword slot) {E : Bytes → Prop} (hcf : Merkle.CollisionFree E)
    (hE : ∀ b, B.Evaluated (inputs ++ [input]) b → E b) (hrs : ∀ r, input.2 = some r → r.Rebuilds Codeword)
    (hfirst : FirstGenuine B stats (inputs ++ [input])) (hrun : insertAll stats inputs = .ok (s, os))
    (h : Unmoved B stats inputs s os) (hstep : insertStep s input = .ok (s', out)) :
    Unmoved B stats (inputs ++ [input]) s' (os ++ out) := by
  have hok := insertStep_ok.mp hstep
  have hI := insertAll_inv hrun
  obtain ⟨t, hrunt, halike⟩ := h.same
  have hsnoc : ∀ f, AcceptedIn stats (inputs ++ [input]) f ↔
      AcceptedIn stats inputs f ∨ input.1.fecSetIndex = f ∧ s.1.TakesIn input.1 := fun f => Steps.occurs_snoc hrun
  by_cases hx : s.1.TakesIn input.1
  · have hgen : B.genuine input.1 = true := by
      refine h.guarded.genuine_of_takesIn hI.toAssembling hx ?_ (hfirst inputs input [] s os rfl hrun hx)
      intro S hS hroot hsig
      refine (hB _ S hS).pins hcf (fun b hb => hE b (.inl ⟨_, S, hS, hb⟩)) (fun b hb => ?_) hroot hsig
      exact hE b (.inr ⟨input, by simp, hb⟩)
    obtain ⟨_, mid, fresh, _, hone⟩ := insert_spec hI (fecSetIndex_of_insert hok) hok
    obtain ⟨root, set', indexes, ht⟩ := hone.stored.taken_of_takesIn hx
    have hmid := h.guarded.taken hI.toAssembling hB hrs hgen ht
    have hmidI := hone.stored.assembling (fecSetIndex_of_insert hok) hI.toAssembling
    have hfilter : genuineInputs B (inputs ++ [input]) = genuineInputs B inputs ++ [input] := by
      simp [genuineInputs, hgen]
    obtain ⟨t', stats', hokt, halike'⟩ := halike.insert hI (insertAll_inv hrunt) hok t.2
    refine ⟨?_, ⟨(t', stats'), ?_, halike'⟩, ?_⟩
    · refine (hmid.emitting hone.toEmitting).mono fun f hf => ?_
      exact ((hsnoc f).mp hf).imp id And.left
    · rw [hfilter]
      exact Steps.runAll_snoc_ok.mpr ⟨t, os, out, hrunt, insertStep_ok.mpr hokt, rfl⟩
    · intro seg hseg
      rcases List.mem_append.mp hseg with hseg | hseg
      · exact h.leader seg hseg
      · obtain ⟨hr, hs, heq⟩ := hone.segments seg hseg
        obtain ⟨hlr, hbytes⟩ := hmid.segment hmidI hr hs
        exact ⟨hlr, heq.trans hbytes⟩
  · obtain ⟨rfl, haa⟩ := insert_refused hI hx hok
    have hguard : Guarded B (AcceptedIn stats (inputs ++ [input])) s'.1 :=
      (h.guarded.alike haa).mono fun f hf => ((hsnoc f).mp hf).resolve_right fun hno => hx hno.2
    rw [List.append_nil]
    -- a genuine shred that is refused is refused by both
    cases hgen : B.genuine input.1 with
    | false =>
      have hfilter : genuineInputs B (inputs ++ [input]) = genuineInputs B inputs := by
        simp [genuineInputs, hgen]
      exact ⟨hguard, ⟨t, by rw [hfilter]; exact hrunt, haa.symm.trans halike⟩, h.leader⟩
    | true =>
      have hfilter : genuineInputs B (inputs ++ [input]) = genuineInputs B inputs ++ [input] := by
        simp [genuineInputs, hgen]
      obtain ⟨t', stats', hokt, halike'⟩ := halike.insert hI (insertAll_inv hrunt) hok t.2
      refine ⟨hguard, ⟨(t', stats'), ?_, halike'⟩, h.leader⟩
      rw [hfilter]
      exact Steps.runAll_snoc_ok.mpr ⟨t, os, [], hrunt, insertStep_ok.mpr hokt, by simp⟩

/-- The calls return unless a code shred is past the last set of a slot, and emit what
the genuine shreds alone make the slot emit: runs of the leader, with its bytes. -/
structure Unaltered (B : Block) (stats : Stats) (inputs : List (Shred × Option ReedSolomon)) : Prop where
  returns : (∃ r, insertAll stats inputs = .ok r) ↔ ∀ i ∈ inputs, i.1.kind = .code → i.1.fecSetIndex ≤ 32736
  same : ∀ s out, insertAll stats inputs = .ok (s, out) → ∃ s', insertAll stats (genuineInputs B inputs) = .ok (s', out)
  leader : ∀ s out, insertAll stats inputs = .ok (s, out) → ∀ seg ∈ out,
    B.LeaderRun seg.shreds.1 seg.shreds.2 ∧ seg = B.segment seg.shreds.1 seg.shreds.2

theorem unmoved (hB : B.Committed Codeword slot) (hcf : Merkle.CollisionFree (B.Evaluated inputs))
    (hrs : ∀ i ∈ inputs, ∀ r, i.2 = some r → r.Rebuilds Codeword) (hfirst : FirstGenuine B stats inputs)
    (h : insertAll stats inputs = .ok (s, out)) : Unmoved B stats inputs s out := by
  refine Steps.runAll_induct (P := fun is s os => (∀ i ∈ is, i ∈ inputs) → FirstGenuine B stats is →
    Unmoved B stats is s os) ?_ ?_ h (fun _ hi => hi) hfirst
  · intro _ _
    refine ⟨Guarded.empty.mono fun f hf => Steps.not_occurs_nil hf, ⟨_, Steps.runAll_nil _, Alike.refl _⟩, by simp⟩
  · intro is s os i s' out' hrun hP hstep hsub hf
    refine Unmoved.insert hB hcf ?_ (hrs i (hsub i (by simp))) hf hrun
      (hP (fun j hj => hsub j (List.mem_append_left _ hj)) hf.init) hstep
    rintro b (hb | ⟨j, hj, hb⟩)
    · exact .inl hb
    · exact .inr ⟨j, hsub j hj, hb⟩

theorem forged_shreds_alter_nothing (B : Block) (Codeword : List Bytes → Prop) (slot : ℕ)
    (hB : B.Committed Codeword slot) (stats : Stats) (inputs : List (Shred × Option ReedSolomon))
    (hcf : Merkle.CollisionFree (B.Evaluated inputs))
    (hrs : ∀ i ∈ inputs, ∀ r, i.2 = some r → r.Rebuilds Codeword) (hfirst : FirstGenuine B stats inputs) :
    Unaltered B stats inputs where
  returns := insertAll_returns_iff stats inputs
  same s out h := by
    obtain ⟨s', hs', _⟩ := (unmoved hB hcf hrs hfirst h).same
    exact ⟨s', hs'⟩
  leader s out h := (unmoved hB hcf hrs hfirst h).leader

/-- All calls return and emit what the genuine shreds alone make the slot emit: runs of
the leader, with its bytes. -/
def EmitsGenuine (B : Block) (stats : Stats) (inputs : List (Shred × Option ReedSolomon)) : Prop :=
  ∃ s s' out, insertAll stats inputs = .ok (s, out) ∧ insertAll stats (genuineInputs B inputs) = .ok (s', out) ∧
    ∀ seg ∈ out, B.LeaderRun seg.shreds.1 seg.shreds.2 ∧ seg = B.segment seg.shreds.1 seg.shreds.2

/-- What shreds of others can do is make a call panic, and for that they need a code
shred past the last set of a slot. -/
theorem emits_genuine_iff (B : Block) (Codeword : List Bytes → Prop) (slot : ℕ) (hB : B.Committed Codeword slot)
    (stats : Stats) (inputs : List (Shred × Option ReedSolomon)) (hcf : Merkle.CollisionFree (B.Evaluated inputs))
    (hrs : ∀ i ∈ inputs, ∀ r, i.2 = some r → r.Rebuilds Codeword) (hfirst : FirstGenuine B stats inputs) :
    EmitsGenuine B stats inputs ↔ ∀ i ∈ inputs, i.1.kind = .code → i.1.fecSetIndex ≤ 32736 := by
  have h := forged_shreds_alter_nothing B Codeword slot hB stats inputs hcf hrs hfirst
  rw [← h.returns]
  constructor
  · intro ⟨s, _, out, hrun, _⟩
    exact ⟨(s, out), hrun⟩
  · intro ⟨⟨s, out⟩, hrun⟩
    obtain ⟨s', hs'⟩ := h.same s out hrun
    exact ⟨s, s', out, hrun, hs', h.leader s out hrun⟩

theorem firstGenuine_of {B : Block} (h : ∀ i ∈ inputs, B.genuine i.1 = true ∨ i.1.merkleRoot = none) :
    FirstGenuine B stats inputs := by
  intro before i after s os heq _ hx _
  rcases h i (by rw [heq]; simp) with hgen | hnone
  · exact hgen
  · obtain ⟨root, hacc⟩ := ((s.1.setAt i.1.fecSetIndex).insert_new_iff i.1).mp hx.new
    rw [hacc.proof] at hnone
    contradiction

end SlotState

/-! ### A block under a hash without collisions -/

section
open MerkleLevels

/- A leaf is its position, a join half of what its left side is: the places of a
binary heap. -/
def heapLabel : Bytes → ℕ
  | 0 :: rest =>
    if rest.getD 25 0 = 0x96 then 64 + (rest.getD 34 0).toNat
    else if rest.getD 25 0 = 0x66 then 96 + (rest.getD 48 0).toNat
    else 0
  | _ :: rest => leVal ((rest.drop 25).take 20) / 2
  | [] => 0

def heapNode (n : ℕ) : Hash32 := ⟨leBytes 32 n, leBytes_length 32 n⟩

@[reducible] def heapHasher : Hasher := ⟨fun b => heapNode (heapLabel b)⟩

/- Set 0 of slot 7, every shred a run of its own. -/
def heapDraft : SetDraft := SetDraft.line 7 (fun _ => 0) 0

def heapSet : LeaderSet := @lineSet heapHasher 7 sampleSlot_lt

def heapBlock : Block := fun f => if f = 0 then some heapSet else none

/- Index 1, without a proof. -/
def unproven : Shred :=
  (DataPacket.blank 7 1 0).shred (DataPacket.blank_valid (by decide) (by decide) (.inl rfl))

/- The first code shred of set 32768, without a proof. -/
def pastEnd : Shred := (CodePacket.blank 7 32768).shred (CodePacket.blank_valid (by decide) (by decide) (by decide))

theorem leafPrefix_getD (b : Bytes) (k : ℕ) :
    (Merkle.ascii "SOLANA_MERKLE_SHREDS_LEAF" ++ b).getD (25 + k) 0 = b.getD k 0 := by
  have hlen : (Merkle.ascii "SOLANA_MERKLE_SHREDS_LEAF").length = 25 := by decide
  rw [List.getD_append_right _ _ _ _ (by omega), hlen, Nat.add_sub_cancel_left]

theorem heapLabel_leaf (q : Position) : heapLabel (Merkle.leafInput (heapDraft.leafBytes q)) = 64 + q.erasureIndex := by
  have hinput : Merkle.leafInput (heapDraft.leafBytes q) =
      0 :: (Merkle.ascii "SOLANA_MERKLE_SHREDS_LEAF" ++ heapDraft.leafBytes q) := rfl
  rw [hinput, heapLabel, leafPrefix_getD _ 0, leafPrefix_getD _ 9, leafPrefix_getD _ 23]
  cases q with
  | data p =>
    have hp := p.isLt
    have hvariant : (heapDraft.leafBytes (.data p)).getD 0 0 = 0x96 := rfl
    have hbyte : (heapDraft.leafBytes (.data p)).getD 9 0 = UInt8.ofNat (0 + p) := rfl
    rw [hvariant, if_pos rfl, hbyte, UInt8.toNat_ofNat', Position.erasureIndex]
    omega
  | code p =>
    have hp := p.isLt
    have hvariant : (heapDraft.leafBytes (.code p)).getD 0 0 = 0x66 := rfl
    have hbyte : (heapDraft.leafBytes (.code p)).getD 23 0 = UInt8.ofNat p := rfl
    rw [hvariant, if_neg (by decide), if_pos rfl, hbyte, UInt8.toNat_ofNat', Position.erasureIndex]
    omega

theorem cut_heapNode (n : ℕ) : Merkle.cut (heapNode n) = leBytes 20 n := rfl

theorem heapLabel_node {a : ℕ} (ha : a < 256 ^ 20) (b : Bytes) :
    heapLabel (Merkle.nodeInput (leBytes 20 a, b)) = a / 2 := by
  have hsplit : Merkle.nodeInput (leBytes 20 a, b) =
      0x01 :: (Merkle.ascii "SOLANA_MERKLE_SHREDS_NODE" ++ (leBytes 20 a ++ b)) := by
    simp [Merkle.nodeInput, Merkle.nodePrefix]
  have hlen : (Merkle.ascii "SOLANA_MERKLE_SHREDS_NODE").length = 25 := by decide
  rw [hsplit]
  show leVal (((Merkle.ascii "SOLANA_MERKLE_SHREDS_NODE" ++ (leBytes 20 a ++ b)).drop 25).take 20) / 2 = a / 2
  rw [← hlen, List.drop_left, List.take_left' (leBytes_length 20 a), leVal_leBytes 20 a ha]

theorem join_heap {a b : ℕ} (ha : a < 256 ^ 20) :
    @Merkle.join heapHasher (leBytes 20 a) (leBytes 20 b) = heapNode (a / 2) := by
  have h := @Merkle.join_eq heapHasher (leBytes 20 a, leBytes 20 b) (leBytes_length 20 a) (leBytes_length 20 b)
  rw [h]
  show heapNode (heapLabel (Merkle.nodeInput (leBytes 20 a, leBytes 20 b))) = heapNode (a / 2)
  rw [heapLabel_node ha]

theorem pairs_heap (a k : ℕ) : pairs Merkle.cut ((List.range' (2 * a) (2 * k)).map heapNode) =
    (List.range' a k).map fun n => (leBytes 20 (2 * n), leBytes 20 (2 * n + 1)) := by
  induction k generalizing a with
  | zero => rfl
  | succ k ih =>
    have hnext : 2 * a + 1 + 1 = 2 * (a + 1) := by omega
    rw [Nat.mul_succ, List.range'_succ, List.range'_succ, List.range'_succ, List.map_cons, List.map_cons, pairs,
      hnext, ih, List.map_cons, cut_heapNode, cut_heapNode]

theorem levelUp_heap {a k : ℕ} (h : 2 * (a + k) < 256 ^ 20) :
    levelUp Merkle.cut (@Merkle.join heapHasher) ((List.range' (2 * a) (2 * k)).map heapNode) =
      (List.range' a k).map heapNode := by
  rw [levelUp, pairs_heap, List.map_map]
  apply List.map_congr_left
  intro n hn
  have hn := List.mem_range'_1.mp hn
  have hjoin := @join_heap (2 * n) (2 * n + 1) (by omega)
  rw [Function.comp, hjoin, Nat.mul_div_cancel_left n (by decide)]

theorem treePairs_heap (m : ℕ) (hm : m ≤ 6) : ∀ p ∈ treePairs Merkle.cut (@Merkle.join heapHasher) m
    ((List.range' (2 ^ m) (2 ^ m)).map heapNode),
    ∃ n, 0 < n ∧ n < 64 ∧ p = (leBytes 20 (2 * n), leBytes 20 (2 * n + 1)) := by
  induction m with
  | zero => simp [treePairs]
  | succ m ih =>
    have hpow : 2 ^ m ≤ 2 ^ 5 := Nat.pow_le_pow_right (by decide) (by omega)
    have hpos := Nat.two_pow_pos m
    intro p hp
    rw [pow_succ', treePairs, levelUp_heap (by omega), List.mem_append] at hp
    rcases hp with hp | hp
    · rw [pairs_heap] at hp
      obtain ⟨n, hn, rfl⟩ := List.mem_map.mp hp
      have hn := List.mem_range'_1.mp hn
      exact ⟨n, by omega, by omega, rfl⟩
    · exact ih (by omega) p hp

/- The only input with this label, when `other` is the one with label 0. -/
def heapInput (other : Bytes) (n : ℕ) : Bytes :=
  if n = 0 then other
  else if n < 64 then Merkle.nodeInput (leBytes 20 (2 * n), leBytes 20 (2 * n + 1))
  else Merkle.leafInput ((Position.all[n - 64]?).elim [] heapDraft.leafBytes)

theorem heapDraft_valid : heapDraft.Valid :=
  SetDraft.line_valid (by decide) (fun _ _ => Nat.two_pow_pos 16) (Nat.two_pow_pos 16)

theorem heapSet_leafBytes (q : Position) : (heapSet.shred q).leafBytes = heapDraft.leafBytes q :=
  (@SetDraft.sealedSet_parts heapDraft heapHasher heapDraft_valid q).2.2.2

theorem heapSet_leaves : @LeaderSet.leaves heapHasher heapSet = (List.range' (2 ^ 6) (2 ^ 6)).map heapNode := by
  have hlabels : Position.all.map (fun q => 64 + q.erasureIndex) = List.range' (2 ^ 6) (2 ^ 6) := by decide
  rw [← hlabels, List.map_map]
  apply List.map_congr_left
  intro q _
  have hleaf := @Merkle.leaf_eq heapHasher (heapSet.shred q).leafBytes
  rw [heapSet_leafBytes] at hleaf
  rw [Shred.merkleLeaf, heapSet_leafBytes, hleaf, Function.comp, ← heapLabel_leaf]
  rfl

theorem heapSet_committed : @LeaderSet.Committed heapHasher heapSet (· = lineCodeword 7 fun _ => 0) 7 0 :=
  @SetDraft.sealedSet_committed heapHasher heapDraft heapDraft_valid _ (SetDraft.line_erasureShards 7 (fun _ => 0) 0)

theorem heapBlock_committed : @Block.Committed heapHasher heapBlock (· = lineCodeword 7 fun _ => 0) 7 := by
  intro f S hS
  simp only [heapBlock] at hS
  split at hS
  · rename_i hf
    rw [← Option.some.inj hS, hf]
    exact heapSet_committed
  · contradiction

theorem cut_digest {b : Bytes} (h : heapLabel b < 256 ^ 20) :
    leVal (Merkle.cut (heapHasher.digest b)) = heapLabel b := leVal_leBytes 20 _ h

theorem heap_treeInputs (other : Bytes) {b : Bytes} (h : @LeaderSet.treeInputs heapHasher heapSet b) :
    heapInput other (leVal (Merkle.cut (heapHasher.digest b))) = b := by
  rcases h with ⟨q, rfl⟩ | hb
  · have hq := q.erasureIndex_lt
    have hlabel := heapLabel_leaf q
    rw [heapSet_leafBytes, cut_digest (by omega), hlabel, heapInput, if_neg (by omega), if_neg (by omega),
      Nat.add_sub_cancel_left, q.all_getElem]
    rfl
  · have hclog : Nat.clog 2 (@LeaderSet.leaves heapHasher heapSet).length = 6 := by
      rw [@LeaderSet.leaves_length heapHasher heapSet]
      exact Nat.clog_pow 2 6 (by decide)
    have hb : b ∈ @Merkle.treeInputs heapHasher (@LeaderSet.leaves heapHasher heapSet) := hb
    unfold Merkle.treeInputs at hb
    rw [hclog, heapSet_leaves] at hb
    obtain ⟨p, hp, rfl⟩ := List.mem_map.mp hb
    obtain ⟨n, h0, h64, rfl⟩ := treePairs_heap 6 le_rfl p hp
    have hlabel := @heapLabel_node (2 * n) (by omega) (leBytes 20 (2 * n + 1))
    rw [Nat.mul_div_cancel_left n (by decide)] at hlabel
    rw [cut_digest (by omega), hlabel, heapInput, if_neg (by omega), if_pos h64]

/- A shred without a proof, away from position 0: it leads to no root. -/
structure Rootless (x : Shred) : Prop where
  proofSize : x.proofSize = 0
  index : x.erasureShardIndex ≠ 0
  label : heapLabel (Merkle.leafInput x.leafBytes) = 0

theorem Rootless.merkleRoot [Hasher] {x : Shred} (h : Rootless x) : x.merkleRoot = none :=
  Shred.merkleRoot_of_no_proof h.proofSize h.index

theorem Rootless.rootInputs [Hasher] {x : Shred} (h : Rootless x) {b : Bytes} (hb : x.rootInputs b) :
    b = Merkle.leafInput x.leafBytes := by
  rcases hb with hb | hb
  · exact hb
  · rw [Merkle.proofInputs, Shred.chunks_of_no_proof h.proofSize] at hb
    contradiction

theorem unproven_rootless : Rootless unproven where
  proofSize := by
    show ((0x90 : UInt8) &&& 0x0F).toNat = 0
    decide
  index := show (1 : ℕ) ≠ 0 by decide
  label := rfl

theorem pastEnd_rootless : Rootless pastEnd where
  proofSize := by
    show ((0x60 : UInt8) &&& 0x0F).toNat = 0
    decide
  index := show (32 : ℕ) ≠ 0 by decide
  label := rfl

/- A shred without a proof in front of a genuine one. -/
def heapInputs (x : Shred) : List (Shred × Option ReedSolomon) :=
  [(x, none), (heapSet.data 0, some (ReedSolomon.table (lineCodeword 7 fun _ => 0)))]

theorem heap_collisionFree {x : Shred} (hx : Rootless x) :
    @Merkle.CollisionFree heapHasher (@Block.Evaluated heapHasher heapBlock (heapInputs x)) := by
  refine @Merkle.collisionFree_of_inverse heapHasher _
    (fun c => heapInput (Merkle.leafInput x.leafBytes) (leVal c)) ?_
  rintro b (⟨f, S, hS, hb⟩ | ⟨i, hi, hb⟩)
  · simp only [heapBlock] at hS
    split at hS
    · rw [← Option.some.inj hS] at hb
      exact heap_treeInputs _ hb
    · contradiction
  · simp only [heapInputs, List.mem_cons, List.not_mem_nil, or_false] at hi
    rcases hi with rfl | rfl
    · rw [@Rootless.rootInputs heapHasher _ hx b hb, cut_digest (by rw [hx.label]; decide), hx.label]
      rfl
    · exact heap_treeInputs _ (@LeaderSet.Committed.rootInputs heapHasher _ _ _ _ heapSet_committed (.data 0) b hb)

theorem heap_rebuilds (x : Shred) : ∀ i ∈ heapInputs x, ∀ r, i.2 = some r → r.Rebuilds (· = lineCodeword 7 fun _ => 0) := by
  intro i hi r hr
  simp only [heapInputs, List.mem_cons, List.not_mem_nil, or_false] at hi
  rcases hi with rfl | rfl
  · contradiction
  · rw [← Option.some.inj hr]
    exact ReedSolomon.table_rebuilds (lineCodeword_length ..)

theorem heapBlock_genuine : heapBlock.genuine (heapSet.data 0) = true := by
  have hpos : (heapSet.data 0).position = .data 0 :=
    (@LeaderSet.Committed.position heapHasher _ _ _ _ heapSet_committed) (.data 0)
  refine Block.genuine_iff.mpr ⟨heapSet, rfl, ?_⟩
  show Shred.Agrees (heapSet.shred (heapSet.data 0).position) (heapSet.data 0) _
  rw [hpos]
  exact rfl

theorem heap_firstGenuine {x : Shred} (hx : Rootless x) :
    @FirstGenuine heapHasher heapBlock Stats.default (heapInputs x) := by
  refine @firstGenuine_of heapHasher _ _ _ fun i hi => ?_
  simp only [heapInputs, List.mem_cons, List.not_mem_nil, or_false] at hi
  rcases hi with rfl | rfl
  · exact .inr (@Rootless.merkleRoot heapHasher _ hx)
  · exact .inl heapBlock_genuine

theorem heapBlock_consistent : @Block.Consistent heapHasher heapBlock (· = lineCodeword 7 fun _ => 0) 7 0 := by
  intro f S hS
  simp only [heapBlock] at hS
  split at hS
  · rename_i hf
    rw [← Option.some.inj hS, hf]
    exact @lineSet_consistent heapHasher 7 sampleSlot_lt
  · contradiction

/- The genuine shred is a run. -/
theorem heap_emits (rs : ReedSolomon) (hrs : rs.Rebuilds (· = lineCodeword 7 fun _ => 0)) : ∃ s out,
    @insertAll heapHasher Stats.default [(heapSet.data 0, some rs)] = .ok (s, out) ∧ heapBlock.segment 0 0 ∈ out := by
  let : Hasher := heapHasher
  have hC := lineSet_consistent sampleSlot_lt
  have hset : (heapSet.data 0).fecSetIndex = 0 := hC.fecSetIndex (.data 0)
  have hpos : (heapSet.data 0).position = .data 0 := hC.position (.data 0)
  have hshred : heapBlock.shredAt 0 = some (heapSet.data 0) := Block.shredAt_add rfl rfl 0
  have hsends : ∀ i ∈ [(heapSet.data 0, some rs)], heapBlock.Sends i.1 := by
    intro i hi
    rw [List.mem_singleton.mp hi]
    refine ⟨heapSet, ?_, ?_⟩
    · rw [hset]
      rfl
    · rw [hpos]
      rfl
  have hrs' : ∀ i ∈ [(heapSet.data 0, some rs)], ∀ r, i.2 = some r →
      true = true ∧ r.Rebuilds (· = lineCodeword 7 fun _ => 0) := by
    intro i hi r hr
    rw [List.mem_singleton.mp hi] at hr
    exact ⟨rfl, Option.some.inj hr ▸ hrs⟩
  have hsome : ∀ i ∈ [(heapSet.data 0, some rs)], true = true → i.2 ≠ none := by
    intro i hi _
    rw [List.mem_singleton.mp hi]
    exact Option.some_ne_none rs
  obtain ⟨s, out, hrun, htracks, hout⟩ :=
    insertAll_tracks heapBlock_consistent.sets Stats.default _ hsends hrs' hsome
  refine ⟨s, out, hrun, (hout _).mpr ⟨?_, rfl⟩⟩
  refine (htracks.run_iff (SlotState.insertAll_inv hrun).toAssembling 0 0).mpr ⟨le_rfl, ?_, ?_, ?_, .inl rfl⟩
  · intro i _ hi
    obtain rfl : i = 0 := Nat.le_zero.mp hi
    exact ⟨rfl, .inl (mem_arrivedIn.mpr ⟨_, List.mem_singleton_self _, hset, hpos⟩)⟩
  · rw [Block.Closes, hshred, Option.any_some]
    exact lineSet_dataComplete sampleSlot_lt 0
  · exact fun i _ hi => absurd hi (Nat.not_lt_zero i)

namespace SlotState

/-- The shred without a proof is rejected, and the genuine one comes out; the code shred
past the last set of the slot keeps it from coming out. -/
theorem emits_genuine_iff_heap : @EmitsGenuine heapHasher heapBlock Stats.default (heapInputs unproven) ∧
    ¬ @EmitsGenuine heapHasher heapBlock Stats.default (heapInputs pastEnd) := by
  constructor
  · refine (@emits_genuine_iff heapHasher heapBlock _ 7 heapBlock_committed Stats.default _
      (heap_collisionFree unproven_rootless) (heap_rebuilds unproven) (heap_firstGenuine unproven_rootless)).mpr ?_
    intro i hi hk
    simp only [heapInputs, List.mem_cons, List.not_mem_nil, or_false] at hi
    rcases hi with rfl | rfl
    · contradiction
    · exact Nat.zero_le _
  · intro h
    have hle := (@emits_genuine_iff heapHasher heapBlock _ 7 heapBlock_committed Stats.default _
      (heap_collisionFree pastEnd_rootless) (heap_rebuilds pastEnd) (heap_firstGenuine pastEnd_rootless)).mp h
      _ List.mem_cons_self rfl
    exact absurd (show 32768 ≤ 32736 from hle) (by decide)

/-- One code shred past the last set and then a genuine data shred: the first call
panics, though on its own the genuine shred is emitted. -/
theorem pastEnd_stops_genuine :
    @Block.Committed heapHasher heapBlock (· = lineCodeword 7 fun _ => 0) 7 ∧
      @Merkle.CollisionFree heapHasher (@Block.Evaluated heapHasher heapBlock (heapInputs pastEnd)) ∧
      (∀ i ∈ heapInputs pastEnd, ∀ r, i.2 = some r → r.Rebuilds (· = lineCodeword 7 fun _ => 0)) ∧
      @FirstGenuine heapHasher heapBlock Stats.default (heapInputs pastEnd) ∧
      @insertAll heapHasher Stats.default (heapInputs pastEnd) = .error .countOnesOutOfRange ∧
      (∃ s out, @insertAll heapHasher Stats.default (genuineInputs heapBlock (heapInputs pastEnd)) = .ok (s, out) ∧
        heapBlock.segment 0 0 ∈ out) ∧
      ¬ @EmitsGenuine heapHasher heapBlock Stats.default (heapInputs pastEnd) := by
  let : Hasher := heapHasher
  have hpanics : insertAll Stats.default (heapInputs pastEnd) = .error .countOnesOutOfRange := by
    have hinsert : SlotState.empty.insert pastEnd none Stats.default = .error .countOnesOutOfRange :=
      insert_panics rfl (show 32736 < 32768 by decide) none Stats.default
    have hstep : insertStep (SlotState.empty, Stats.default) (pastEnd, none) = .error .countOnesOutOfRange := by
      rw [insertStep, hinsert]
    rw [insertAll, heapInputs, Steps.runAll, hstep]
  have hforged : heapBlock.genuine pastEnd = false := rfl
  have hfilter : genuineInputs heapBlock (heapInputs pastEnd) =
      [(heapSet.data 0, some (ReedSolomon.table (lineCodeword 7 fun _ => 0)))] := by
    simp only [genuineInputs, heapInputs, List.filter_cons, hforged, heapBlock_genuine, List.filter_nil, ↓reduceIte,
      Bool.false_eq_true]
  refine ⟨heapBlock_committed, heap_collisionFree pastEnd_rootless, heap_rebuilds pastEnd,
    heap_firstGenuine pastEnd_rootless, hpanics, ?_, ?_⟩
  · rw [hfilter]
    exact heap_emits _ (ReedSolomon.table_rebuilds (lineCodeword_length ..))
  · rintro ⟨s, s', out, hrun, -⟩
    cases hpanics.symm.trans hrun

end SlotState

/-! ### What leads to a leader's root -/

/-- Whatever its proof size and its proof, a shred that leads to the root of the tree over
64 shreds is one of them from the variant byte to the end of the proof, and has the
proof of the tree. -/
theorem LeaderSet.root_fixes_shred [Hasher] (S : LeaderSet) (x : Shred)
    (hcf : Merkle.CollisionFree fun b => S.treeInputs b ∨ x.rootInputs b) (hroot : x.merkleRoot = some S.tree.root) :
    x.proofSize = 6 ∧ x.leafBytes = (S.shred x.position).leafBytes ∧ x.merkleProof = S.treeProof x.position := by
  obtain ⟨hleaf, hproof⟩ := pinned_by_root hcf (fun _ hb => .inl hb) (fun _ hb => .inr hb) hroot
  have hcount := (Merkle.chunksExact_count Merkle.proofEntrySize x.proofSize (by decide) _ x.merkleProof_length).1
  rw [hproof, siblings_length] at hcount
  refine ⟨hcount.symm, hleaf, ?_⟩
  rw [S.treeProof_eq, ← hproof, x.merkleProof_flatten]

theorem root_fixes_shred_heap : (heapSet.data 31).proofSize = 6 ∧
    (heapSet.data 31).leafBytes = (heapSet.shred (heapSet.data 31).position).leafBytes ∧
    (heapSet.data 31).merkleProof = @LeaderSet.treeProof heapHasher heapSet (heapSet.data 31).position := by
  have hS := heapSet_committed
  refine @LeaderSet.root_fixes_shred heapHasher heapSet (heapSet.data 31) ?_
    (@LeaderSet.Committed.merkleRoot heapHasher _ _ _ _ hS (.data 31))
  refine @Merkle.collisionFree_of_inverse heapHasher _ (fun c => heapInput [] (leVal c)) fun b hb => ?_
  rcases hb with hb | hb
  · exact heap_treeInputs _ hb
  · exact heap_treeInputs _ (@LeaderSet.Committed.rootInputs heapHasher _ _ _ _ hS (.data 31) b hb)

end
end Deshred
