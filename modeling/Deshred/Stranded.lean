import Deshred.Codeword
import Deshred.Feeding

/-!
# Shreds that are held but not marked

The received bits follow the sets except when a recovery fails part of the way: what
it had rebuilt by then stays in the set, and no bit is set for it.
-/

namespace Deshred

namespace FecSet

/-- The recovery either rebuilds every missing shred or none. -/
def AllOrNothing (signature : Signature) (template : Shred) (shards : List (Bytes × Bool)) : Prop :=
  (∀ p shard, (p, shard, false) ∈ reconstructed shards → ∃ y, rebuild signature template p shard = .ok y) ∨
    ∀ p shard, (reconstructed shards).find? (fun x => !x.2.2) = some (p, shard, false) →
      ∃ e, rebuild signature template p shard = .error e

theorem rebuildAll_none_iff {signature : Signature} {template : Shred} {items : List (Fin 32 × Bytes × Bool)} :
    (rebuildAll signature template items).2 = none ↔
      ∀ p shard, (p, shard, false) ∈ items → ∃ y, rebuild signature template p shard = .ok y := by
  refine ⟨fun h => ?_, rebuildAll_total⟩
  induction items with
  | nil => simp
  | cons item items ih =>
    obtain ⟨q, shard, present⟩ := item
    intro p shard' hmem
    cases present with
    | true =>
      rcases List.mem_cons.mp hmem with heq | hmem
      · cases heq
      · exact ih h p shard' hmem
    | false =>
      cases hre : rebuild signature template q shard with
      | error e => simp [rebuildAll, hre] at h
      | ok y =>
        simp only [rebuildAll, hre] at h
        rcases List.mem_cons.mp hmem with heq | hmem
        · cases heq
          exact ⟨y, hre⟩
        · exact ih h p shard' hmem

theorem rebuildAll_nil_of_first {signature : Signature} {template : Shred} {items : List (Fin 32 × Bytes × Bool)}
    (h : ∀ p shard, items.find? (fun x => !x.2.2) = some (p, shard, false) →
      ∃ e, rebuild signature template p shard = .error e) : (rebuildAll signature template items).1 = [] := by
  induction items with
  | nil => rfl
  | cons item items ih =>
    obtain ⟨q, shard, present⟩ := item
    cases present with
    | true =>
      refine ih fun p shard' hf => h p shard' ?_
      rw [List.find?_cons_of_neg (by simp)]
      exact hf
    | false =>
      obtain ⟨e, he⟩ := h q shard (List.find?_cons_of_pos (by simp))
      simp only [rebuildAll, he]

theorem first_of_rebuildAll_nil {signature : Signature} {template : Shred} {items : List (Fin 32 × Bytes × Bool)}
    (h : (rebuildAll signature template items).1 = []) {p : Fin 32} {shard : Bytes}
    (hf : items.find? (fun x => !x.2.2) = some (p, shard, false)) :
    ∃ e, rebuild signature template p shard = .error e := by
  induction items with
  | nil => simp at hf
  | cons item items ih =>
    obtain ⟨q, shard', present⟩ := item
    cases present with
    | true =>
      rw [List.find?_cons_of_neg (by simp)] at hf
      exact ih h hf
    | false =>
      rw [List.find?_cons_of_pos (by simp), Option.some.injEq] at hf
      cases hf
      cases hre : rebuild signature template p shard with
      | error e => exact ⟨e, rfl⟩
      | ok y => simp [rebuildAll, hre] at h

theorem allOrNothing_iff {signature : Signature} {template : Shred} {shards : List (Bytes × Bool)} :
    AllOrNothing signature template shards ↔ (rebuildAll signature template (reconstructed shards)).2 = none ∨
      (rebuildAll signature template (reconstructed shards)).1 = [] := by
  rw [AllOrNothing, ← rebuildAll_none_iff]
  refine or_congr_right ⟨rebuildAll_nil_of_first, fun h p shard hf => first_of_rebuildAll_nil h hf⟩

end FecSet

namespace SlotState

/-- Every data shred held has its bits. -/
def NoStranded (state : SlotState) : Prop := ∀ f p x, (state.setAt f).data p = some x →
  f + p ∈ state.received.ones ∧ (f + p ∈ state.complete.ones ↔ x.dataComplete = true)

/- The shred gets past the two checks before its FEC set. -/
structure Reaches (state : SlotState) (x : Shred) : Prop where
  unseen : x.kind = .data → x.index ∉ state.received.ones
  live : x.kind = .code → ¬ state.SetConsumed x.fecSetIndex

variable [Hasher]

/-- If the shred makes a recovery run, `reconstruct_data` fails or the recovery is
all or nothing. -/
def SoundRecovery (state : SlotState) (x : Shred) (rs : Option ReedSolomon) : Prop :=
  ∀ root r template shards, state.Reaches x → FecSet.Accepts (state.setAt x.fecSetIndex) x root → rs = some r →
    ((state.setAt x.fecSetIndex).accepted x root).canRecover = true →
    ((state.setAt x.fecSetIndex).accepted x root).anyShred = some template →
    r.reconstructData (((state.setAt x.fecSetIndex).accepted x root).shards template.erasureShard.length) =
      some shards →
    FecSet.AllOrNothing ((state.setAt x.fecSetIndex).accepted x root).signature template shards

variable {state state' : SlotState} {x : Shred} {rs : Option ReedSolomon} {fresh indexes : List ℕ}
  {root : Hash32} {set' : FecSet}

theorem Taken.reaches (h : Taken state x rs state' fresh root set' indexes) : state.Reaches x :=
  ⟨h.unseen, fun _ => h.live⟩

/-- Under a sound recovery, every data shred in the set was there before or is fresh. -/
theorem Taken.data_old_or_fresh (h : Taken state x rs state' fresh root set' indexes)
    (hsound : SoundRecovery state x rs) {p : Fin 32} {y : Shred} (hy : set'.data p = some y) :
    (state.setAt x.fecSetIndex).data p = some y ∨ x.fecSetIndex + p ∈ fresh := by
  have hacc : ((state.setAt x.fecSetIndex).accepted x root).data p = some y →
      (state.setAt x.fecSetIndex).data p = some y ∨ x.fecSetIndex + p ∈ fresh := by
    intro hd
    rcases FecSet.accepted_held (q := .data p) h.accepts.needed hd with hold | ⟨hp, _⟩
    · exact .inl hold
    · have hpos := x.position_data hp.symm
      right
      rw [h.fresh_eq, ← hpos.2.1]
      simp [x.isData_iff.mpr hpos.1]
  have hrec := h.recovering
  cases hrec with
  | idle _ => exact hacc hy
  | failed r set' e hrs hc hok hr =>
    cases FecSet.recover_ends hok with
    | undecoded template ht hrec => exact hacc hy
    | stopped template shards l e ht hrec hl =>
      have hall := FecSet.allOrNothing_iff.mp (hsound root r template shards h.reaches h.accepts hrs hc ht hrec)
      rw [hl] at hall
      have hnil : l = [] := by simpa using hall
      rw [hnil] at hy
      exact hacc hy
  | complete r set' indexes hrs hc hok hr =>
    by_cases hd : ((state.setAt x.fecSetIndex).accepted x root).data p = none
    · right
      rw [h.fresh_eq, hr.ok.1]
      exact List.mem_append_right _ (List.mem_map.mpr ⟨p, FecSet.mem_missing.mpr hd, rfl⟩)
    · obtain ⟨z, hz⟩ := Option.ne_none_iff_exists'.mp hd
      rw [hr.keeps hz, Option.some.injEq] at hy
      exact hacc (hy ▸ hz)

theorem Taken.noStranded (h : Taken state x rs state' fresh root set' indexes) (hA : Assembling state)
    (hsound : SoundRecovery state x rs) (hN : NoStranded state) : NoStranded state' := by
  intro f p y hy
  have hold : (state.setAt f).data p = some y → f + p ∈ state'.received.ones ∧
      (f + p ∈ state'.complete.ones ↔ y.dataComplete = true) := by
    intro hd
    obtain ⟨hr, hc⟩ := hN f p y hd
    exact ⟨(h.received _).mpr (.inl hr), (h.complete_old hA hr).trans hc⟩
  by_cases hf : f = x.fecSetIndex
  · subst hf
    rw [setAt, h.sets, Function.update_self, Option.getD_some] at hy
    rcases h.data_old_or_fresh hsound hy with hd | hfresh
    · exact hold hd
    · refine ⟨(h.received _).mpr (.inr hfresh), ?_⟩
      rw [h.complete]
      constructor
      · intro h
        rcases h with hc | ⟨_, q, z, hq, hz, hdc⟩
        · exact absurd (hA.complete_received hc) (h.fresh_unseen hA _ hfresh)
        · have hqp : p = q := Fin.ext (by omega)
          rw [← hqp, hy, Option.some.injEq] at hz
          rw [hz]
          exact hdc
      · exact fun hdc => .inr ⟨hfresh, p, y, rfl, hy, hdc⟩
  · rw [setAt, h.sets, Function.update_of_ne hf] at hy
    exact hold hy

/-- A recovery that is not all or nothing leaves a shred without its bit. -/
theorem Taken.stranded (h : Taken state x rs state' fresh root set' indexes) (hA : Assembling state)
    (hun : ¬ SoundRecovery state x rs) :
    ∃ p y, set'.data p = some y ∧ x.fecSetIndex + p ∉ state'.received.ones := by
  simp only [SoundRecovery, not_forall] at hun
  obtain ⟨root', r, template, shards, _, hacc, hrs, hc, ht, hrd, hun⟩ := hun
  have hroot : root' = root := Option.some.inj (hacc.proof.symm.trans h.accepts.proof)
  subst hroot
  rw [FecSet.allOrNothing_iff, not_or] at hun
  have hkeeps := r.keeps _ _ hrd
  have hrun := FecSet.recover_eq r ht
  rw [hrd] at hrun
  dsimp only at hrun
  have hmem := fun p y => @FecSet.mem_rebuildAll ((state.setAt x.fecSetIndex).accepted x root').signature template
    (FecSet.reconstructed shards) p y
  have hnodup := @FecSet.rebuildAll_nodup ((state.setAt x.fecSetIndex).accepted x root') template _ _ hkeeps
  generalize FecSet.rebuildAll ((state.setAt x.fecSetIndex).accepted x root').signature template
    (FecSet.reconstructed shards) = res at hun hrun hmem hnodup
  obtain ⟨l, e⟩ := res
  obtain ⟨e, rfl⟩ := Option.ne_none_iff_exists'.mp hun.1
  obtain ⟨⟨p, y⟩, l', rfl⟩ := List.exists_cons_of_ne_nil hun.2
  simp only [FecSet.ending] at hrun
  -- the failed recovery is what `insert` stored
  have hset : set' = ((state.setAt x.fecSetIndex).accepted x root').installAll ((p, y) :: l') ∧ indexes = [] := by
    obtain ⟨hset, _, ⟨_, hnil⟩ | hres⟩ := h.recovering.of_recover hrs hc hrun
    · exact ⟨hset, hnil⟩
    · contradiction
  obtain ⟨shard, hin, _⟩ := hmem p y (List.mem_cons_self ..)
  have hnone : ((state.setAt x.fecSetIndex).accepted x root').data p = none := by
    have hflag := FecSet.reconstructed_flag hkeeps hin
    simpa using hflag.symm
  refine ⟨p, y, ?_, ?_⟩
  · rw [hset.1]
    exact FecSet.installAll_data hnodup (List.mem_cons_self ..)
  · rw [h.received, not_or]
    refine ⟨fun hr => ?_, fun hfresh => ?_⟩
    · rcases hA.shred _ hr with ⟨z, hz, _⟩ | hcons
      · rw [shredAt_add _ x.valid.aligned] at hz
        have hkeep := FecSet.accepted_keeps root' h.accepts.fresh hz
        rw [hnone] at hkeep
        contradiction
      · have ha := x.valid.aligned
        have hplt := p.isLt
        have heq : x.fecSetIndex + (p : ℕ) - (x.fecSetIndex + (p : ℕ)) % 32 = x.fecSetIndex := by omega
        rw [heq] at hcons
        exact h.live hcons
    · rw [h.fresh_eq, hset.2, List.append_nil] at hfresh
      split at hfresh
      · rename_i hd
        obtain ⟨q, hq⟩ := x.exists_position_data (x.isData_iff.mp hd)
        have hpos := x.position_data hq
        have hidx := List.mem_singleton.mp hfresh
        have hpq : p = q := Fin.ext (by omega)
        rw [hpq, FecSet.accepted_data _ x root' hq, Function.update_self] at hnone
        contradiction
      · contradiction

/-! ### One call, and a run of calls -/

omit [Hasher] in
theorem noStranded_putSet (hN : NoStranded state) (f : ℕ) : NoStranded (state.putSet f (state.setAt f)) := by
  intro g p y hy
  rw [putSet_setAt] at hy
  exact hN g p y hy

omit [Hasher] in
theorem noStranded_of_emitting {mid st : SlotState} {out : List Segment} (h : Emitting mid st out)
    (hN : NoStranded mid) : NoStranded st := by
  intro f p y hy
  rw [h.received, h.complete]
  rcases h.sets f with hs | hs
  · rw [setAt, hs] at hy
    exact hN f p y hy
  · rw [setAt, hs.1] at hy
    contradiction

theorem sound_of_noStranded (hI : SlotInv state) (hx : x.fecSetIndex ≤ 32736) {stats stats' : Stats}
    {out : List Segment} (hok : state.insert x rs stats = .ok (state', stats', out)) (hN' : NoStranded state') :
    SoundRecovery state x rs := by
  obtain ⟨_, mid, fresh, _, hins⟩ := insert_spec hI hx hok
  by_contra hun
  have hreached := hun
  simp only [SoundRecovery, not_forall] at hreached
  obtain ⟨root, _, _, _, hreach, hacc, _⟩ := hreached
  obtain ⟨set', indexes, h⟩ := hins.stored.taken_of_accepts hreach.unseen hreach.live hacc
  obtain ⟨p, y, hy, hmiss⟩ := h.stranded hI.toAssembling hun
  rw [← hins.received] at hmiss
  refine hmiss (hN' x.fecSetIndex p y ?_).1
  -- the set cannot have been freed: one of its indexes was not even received
  rcases hins.sets x.fecSetIndex with hs | hs
  · rw [setAt, hs, h.sets, Function.update_self]
    exact hy
  · have hcons := hs.2 (x.fecSetIndex + p) (by omega) (by omega)
    exact absurd (hins.consumed_received hcons) hmiss

theorem noStranded_iff_sound (hI : SlotInv state) (hx : x.fecSetIndex ≤ 32736) (hN : NoStranded state)
    {stats stats' : Stats} {out : List Segment} (hok : state.insert x rs stats = .ok (state', stats', out)) :
    NoStranded state' ↔ SoundRecovery state x rs := by
  refine ⟨sound_of_noStranded hI hx hok, fun hsound => ?_⟩
  obtain ⟨_, mid, fresh, _, hins⟩ := insert_spec hI hx hok
  have hst := hins.stored
  cases hst with
  | dropped _ => exact noStranded_of_emitting hins.toEmitting hN
  | turnedAway why _ _ _ _ => exact noStranded_of_emitting hins.toEmitting (noStranded_putSet hN _)
  | taken mid fresh root set' indexes h =>
    exact noStranded_of_emitting hins.toEmitting (h.noStranded hI.toAssembling hsound hN)

/-- What the bits being right means for later shreds of the slot. -/
theorem NoStranded.consequences (hN : NoStranded state) (hI : SlotInv state) :
    (∀ x, x.kind = .data → x.index ∉ state.received.ones →
      ((state.setAt x.fecSetIndex).insert x).2 ≠ .duplicate) ∧
    ∀ f, (state.setAt f).isComplete = true → ∀ p : Fin 32, f + p ∈ state.received.ones := by
  refine ⟨?_, ?_⟩
  · intro x hk hr hdup
    have hsome := (FecSet.insert_duplicate_iff.mp hdup).2
    obtain ⟨p, hp⟩ := x.exists_position_data hk
    have hpos := x.position_data hp
    rw [FecSet.get_eq, hp] at hsome
    obtain ⟨y, hy⟩ := Option.isSome_iff_exists.mp hsome
    have hbit := (hN x.fecSetIndex p y hy).1
    rw [← hpos.2.1] at hbit
    exact hr hbit
  · intro f hcomp p
    have hall := (hI.setAt_inv f).toPlaced.isComplete_iff.mp hcomp p
    obtain ⟨y, hy⟩ := Option.isSome_iff_exists.mp hall
    exact (hN f p y hy).1

/-- No state of a run strands a shred exactly when every recovery of the run is sound. -/
theorem never_stranded_iff (stats : Stats) (inputs : List (Shred × Option ReedSolomon)) :
    (∀ before after s out, inputs = before ++ after → insertAll stats before = .ok (s, out) →
      NoStranded s.1 ∧
      (∀ x, x.kind = .data → x.index ∉ s.1.received.ones →
        ((s.1.setAt x.fecSetIndex).insert x).2 ≠ .duplicate) ∧
      ∀ f, (s.1.setAt f).isComplete = true → ∀ p : Fin 32, f + p ∈ s.1.received.ones) ↔
    ∀ before input after s out, inputs = before ++ input :: after → insertAll stats before = .ok (s, out) →
      ∀ s' out', insertStep s input = .ok (s', out') → SoundRecovery s.1 input.1 input.2 := by
  constructor
  · intro h before input after s out heq hrun s' out' hstep
    have hok := insertStep_ok.mp hstep
    have hN := (h before (input :: after) s out heq hrun).1
    have hrun' : insertAll stats (before ++ [input]) = .ok (s', out ++ out') :=
      Steps.runAll_snoc_ok.mpr ⟨s, out, out', hrun, hstep, rfl⟩
    have hN' := (h (before ++ [input]) after s' _ (by simp [heq]) hrun').1
    exact (noStranded_iff_sound (insertAll_inv hrun) (fecSetIndex_of_insert hok) hN hok).mp hN'
  · intro h before after s out heq hrun
    have hN : NoStranded s.1 := by
      have hind : ∃ rest, inputs = before ++ rest := ⟨after, heq⟩
      refine Steps.runAll_induct (P := fun is (s : SlotState × Stats) (_ : List Segment) =>
        (∃ rest, inputs = is ++ rest) → NoStranded s.1) ?_ ?_ hrun hind
      · intro _ f p x hx
        contradiction
      · intro is s os i s' out' hrun hP hstep ⟨rest, hrest⟩
        have heq' : inputs = is ++ i :: rest := by simp [hrest]
        have hok := insertStep_ok.mp hstep
        have hsound := h is i rest s os heq' hrun s' out' hstep
        exact (noStranded_iff_sound (insertAll_inv hrun) (fecSetIndex_of_insert hok) (hP ⟨_, heq'⟩) hok).mpr hsound
    exact ⟨hN, hN.consequences (insertAll_inv hrun)⟩

end SlotState

/-! ### A stranded shred

The data shreds of the set below differ in their version, and the code shreds are of
version 0: position 0 rebuilds, position 1 does not. -/

section
open SlotState (SlotInv NoStranded SoundRecovery)
variable [Hasher]

omit [Hasher] in
theorem anyShred_of_code_zero {set : FecSet} {x : Shred} (h : set.code 0 = some x) : set.anyShred = some x := by
  have hcons : List.finRange 32 = 0 :: (List.finRange 32).drop 1 := by decide
  rw [FecSet.anyShred, hcons, List.map_cons, h]
  rfl

/- Data shred `k` has version `k`, every code shred version 0. -/
def mixedDraft : SetDraft := SetDraft.line 9 id 0

omit [Hasher] in
theorem mixedDraft_valid : mixedDraft.Valid :=
  SetDraft.line_valid (by decide) (fun k hk => by simp only [id]; omega) (by decide)

def mixedSet : LeaderSet := mixedDraft.sealedSet mixedDraft_valid

theorem mixedSet_version : (∀ p, (mixedSet.data p).version = p) ∧ ∀ p, (mixedSet.code p).version = 0 :=
  ⟨fun _ => rfl, fun _ => rfl⟩

theorem mixedSet_twin (p : Fin 32) : ∃ y,
    Shred.parse (FecSet.rebuiltBytes mixedDraft.signature (mixedSet.code 0) (mixedSet.data p).erasureShard) = .ok y ∧
      Shred.Twin (mixedSet.data p) y := by
  have hsig : (mixedSet.data p).signature = mixedDraft.signature :=
    SetDraft.sealedSet_signature mixedDraft_valid (.data p)
  have hchain : (mixedSet.data p).chainedMerkleRoot = (mixedSet.code 0).chainedMerkleRoot :=
    (SetDraft.sealedSet_parts mixedDraft_valid (.data p)).2.1.trans
      (SetDraft.sealedSet_parts mixedDraft_valid (.code 0)).2.1.symm
  have hps : (mixedSet.data p).proofSize = (mixedSet.code 0).proofSize :=
    (SetDraft.sealedSet_fields mixedDraft_valid (.data p)).2.2.2.1.trans
      (SetDraft.sealedSet_fields mixedDraft_valid (.code 0)).2.2.2.1.symm
  have hret : (mixedSet.data p).retransmitterSignature = (mixedSet.code 0).retransmitterSignature :=
    (SetDraft.sealedSet_retransmitterSignature mixedDraft_valid (.data p)).trans
      (SetDraft.sealedSet_retransmitterSignature mixedDraft_valid (.code 0)).symm
  rw [← hsig]
  exact Shred.rebuiltBytes_twin rfl hchain hret hps

/-- Position 0 rebuilds with the first code shred as template, position 1 does not. -/
theorem mixedSet_rebuild :
    (∃ y, FecSet.rebuild mixedDraft.signature (mixedSet.code 0) 0 (mixedSet.data 0).erasureShard = .ok y) ∧
      ∀ y, FecSet.rebuild mixedDraft.signature (mixedSet.code 0) 1 (mixedSet.data 1).erasureShard ≠ .ok y := by
  refine ⟨?_, fun y hy => ?_⟩
  · obtain ⟨y, hy, ht⟩ := mixedSet_twin 0
    have hpos : (mixedSet.data 0).position = .data 0 := SetDraft.sealedSet_position mixedDraft_valid (.data 0)
    obtain ⟨hslot, _, hset, _⟩ := SetDraft.sealedSet_fields mixedDraft_valid (.data 0)
    obtain ⟨hslot', _, hset', _⟩ := SetDraft.sealedSet_fields mixedDraft_valid (.code 0)
    have hver : (mixedSet.data 0).version = (mixedSet.code 0).version := by
      rw [mixedSet_version.1, mixedSet_version.2]
      rfl
    exact ⟨y, FecSet.rebuild_of_parse ⟨ht.position hpos, ht.slot.trans (hslot.trans hslot'.symm),
      ht.fecSetIndex.trans (hset.trans hset'.symm), ht.version.trans hver, hy⟩⟩
  · obtain ⟨z, hz, ht⟩ := mixedSet_twin 1
    have hr := FecSet.rebuild_ok hy
    rw [Except.ok.inj (hr.parsed.symm.trans hz)] at hr
    have hver := ht.version.symm.trans hr.version
    rw [mixedSet_version.1, mixedSet_version.2] at hver
    exact absurd hver (by decide)

theorem mixedSet_codeword : mixedSet.erasureShards = lineCodeword 9 id :=
  (SetDraft.sealedSet_erasureShards mixedDraft_valid).trans (SetDraft.line_erasureShards 9 id 0)

/- Thirty data shreds and a code shred. -/
def mixedOrder : List Position := ((List.finRange 32).drop 2).map Position.data ++ [.code 0]

/-- With the second code shred there is a recovery, and it stops half way. -/
theorem mixedSet_half {set : FecSet} (hI : FecSet.Inv 0 set) (hhold : mixedSet.Holding mixedDraft.tree.root
    mixedDraft.signature (insert (.code 1) mixedOrder.toFinset) set) :
    set.canRecover = true ∧ ∃ out, set.anyShred = some (mixedSet.code 0) ∧
      (ReedSolomon.table (lineCodeword 9 id)).reconstructData
        (set.shards (mixedSet.code 0).erasureShard.length) = some out ∧
      ¬ FecSet.AllOrNothing set.signature (mixedSet.code 0) out := by
  have hmiss : ∀ p : Fin 32, (p : ℕ) < 2 → Position.data p ∉ insert (.code 1) mixedOrder.toFinset := by decide
  have hcan := (hhold.canRecover_iff hI (hmiss 0 (by decide))).mpr (by decide)
  have htemplate : set.anyShred = some (mixedSet.code 0) := by
    apply anyShred_of_code_zero
    have hcode := hhold.code 0
    rwa [if_pos (by decide)] at hcode
  have hlen : ∀ q r, (mixedSet.shred q).erasureShard.length = (mixedSet.shred r).erasureShard.length := fun q r =>
    (SetDraft.sealedSet_erasureShard_length mixedDraft_valid q).trans
      (SetDraft.sealedSet_erasureShard_length mixedDraft_valid r).symm
  obtain ⟨out, hrec, hshard⟩ := hhold.carries.reconstructs hI (ReedSolomon.table_rebuilds (lineCodeword_length 9 id))
    mixedSet_codeword hlen hcan (.code 0)
  have hkeeps := (ReedSolomon.table (lineCodeword 9 id)).keeps _ _ hrec
  have hsig : set.signature = mixedDraft.signature := (hhold.known ⟨.code 1, Finset.mem_insert_self ..⟩).2
  have hflag : ∀ p : Fin 32, (p : ℕ) < 2 →
      ∃ shard, (p, shard, false) ∈ FecSet.reconstructed out ∧ shard = (mixedSet.data p).erasureShard := by
    intro p hp
    obtain ⟨shard, hmem⟩ := FecSet.mem_reconstructed hkeeps p
    rw [hhold.data, if_neg (hmiss p hp)] at hmem
    exact ⟨shard, hmem, hshard p shard hmem⟩
  refine ⟨hcan, out, htemplate, hrec, fun hall => ?_⟩
  rw [hsig] at hall
  rcases hall with hall | hall
  · obtain ⟨shard, hmem, rfl⟩ := hflag 1 (by decide)
    obtain ⟨y, hy⟩ := hall 1 _ hmem
    exact mixedSet_rebuild.2 y hy
  · obtain ⟨shard, hmem, rfl⟩ := hflag 0 (by decide)
    obtain ⟨y, hy⟩ := mixedSet_rebuild.1
    have hfind : (FecSet.reconstructed out).find? (fun x => !x.2.2) = some (0, (mixedSet.data 0).erasureShard, false) := by
      have hget := FecSet.reconstructed_getElem hmem
      have hcons : List.finRange 32 = 0 :: (List.finRange 32).drop 1 := by decide
      cases out with
      | nil => simp at hget
      | cons o out =>
        have ho : o = ((mixedSet.data 0).erasureShard, false) := by simpa using hget
        rw [FecSet.reconstructed, hcons, List.zip_cons_cons, ho]
        exact List.find?_cons_of_pos rfl
    obtain ⟨e, he⟩ := hall 0 _ hfind
    rw [hy] at he
    exact absurd he (by simp)

theorem mixedSet_unsound {state : SlotState} (hI : SlotInv state)
    (hfed : Fed mixedSet 0 mixedDraft.tree.root mixedDraft.signature mixedOrder.toFinset state) :
    ¬ SoundRecovery state (mixedSet.code 1) (some (ReedSolomon.table (lineCodeword 9 id))) := by
  intro hsound
  have hS := SetDraft.sealedSet_sealed mixedDraft_valid
  have hnew : Position.code 1 ∉ mixedOrder.toFinset := by decide
  have h0 : Position.data 0 ∉ insert (Position.code 1) mixedOrder.toFinset := by decide
  have h0' : Position.data 0 ∉ mixedOrder.toFinset := fun h => h0 (Finset.mem_insert_of_mem h)
  have hset : (mixedSet.code 1).fecSetIndex = 0 := rfl
  have hhold := hfed.set 0 h0'
  have hIset := hI.setAt_inv 0
  have hacc := hhold.accepts (hS (.code 1)) hnew (hhold.not_complete hIset h0')
  have hIacc := hIset.accepted hset hacc
  obtain ⟨hcan, out, htemplate, hrec, hno⟩ := mixedSet_half hIacc (hhold.accepted (hS (.code 1)) hIset hnew h0)
  have hreach : state.Reaches (mixedSet.code 1) := by
    have hcode : (mixedSet.code 1).kind = .code := rfl
    refine ⟨fun hk => ?_, fun _ => ?_⟩
    · rw [hcode] at hk
      exact absurd hk (by decide)
    · rw [hset]
      exact hfed.live hI h0'
  exact hno (hsound mixedDraft.tree.root _ (mixedSet.code 0) out hreach hacc rfl hcan htemplate hrec)

omit [Hasher] in
/-- 30 data shreds and 2 code shreds: data shred 0 is held, and is not received. -/
theorem data_0_stranded :
    let S := @mixedSet sha256Hasher
    ∃ s out, @SlotState.insertAll sha256Hasher Stats.default ((mixedOrder ++ [Position.code 1]).map fun q =>
        (S.shred q, some (ReedSolomon.table (lineCodeword 9 id)))) = .ok (s, out) ∧ ¬ NoStranded s.1 := by
  intro S
  have hS := @SetDraft.sealedSet_sealed _ sha256Hasher mixedDraft_valid
  obtain ⟨s, out, hrun, hfed⟩ := @insertAll_fed sha256Hasher S 0 _ mixedDraft.signature mixedOrder (fun q _ => hS q)
    (by decide) (by decide) (by decide) 0 (by decide) Stats.default (some (ReedSolomon.table (lineCodeword 9 id)))
  have hI := @SlotState.insertAll_inv sha256Hasher _ _ _ _ hrun
  obtain ⟨mid, fresh, state, stats', segments, _, hok, _, hins⟩ := @SlotState.insert_cases s.1 (S.code 1) sha256Hasher hI
    (by show 0 ≤ 32736; decide) (some (ReedSolomon.table (lineCodeword 9 id))) s.2
  refine ⟨(state, stats'), out ++ segments, ?_, fun hN => ?_⟩
  · rw [List.map_append]
    exact Steps.runAll_snoc_ok.mpr ⟨s, out, segments, hrun, (@SlotState.insertStep_ok sha256Hasher _ _ _ _).mpr hok, rfl⟩
  · exact @mixedSet_unsound sha256Hasher s.1 hI hfed
      (@SlotState.sound_of_noStranded sha256Hasher s.1 state (S.code 1) _ hI (by show 0 ≤ 32736; decide) _ _ _ hok hN)

end
end Deshred
