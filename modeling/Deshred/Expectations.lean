import Deshred.Codeword

/-!
# What `insert` expects of itself

The places of `slot.rs` and `fec.rs` that would panic rest on facts that tie bits,
counters and sets together. `Expectations` lists them for one call.
-/

namespace Deshred

namespace FecSet

/-- `recover` has a template, and its copies stay inside the buffer and have matching
lengths. -/
structure RecoverExpects (set : FecSet) (rs : ReedSolomon) : Prop where
  template : ∃ template, set.anyShred = some template
  copies : ∀ template shards, set.anyShred = some template →
    rs.reconstructData (set.shards template.erasureShard.length) = some shards →
    ∀ p shard, (p, shard, false) ∈ reconstructed shards →
      shard.length = template.erasureShard.length ∧
      signatureSize + shard.length + template.chainedMerkleRoot.length ≤ dataShredSize ∧
      (∀ sig, template.retransmitterSignature = some sig →
        signatureSize + shard.length + template.chainedMerkleRoot.length + sig.val.length ≤ dataShredSize) ∧
      ∃ bytes, recoveredBytes set.signature shard template.chainedMerkleRoot template.retransmitterSignature = .ok bytes

theorem recoverExpects {f : ℕ} {set : FecSet} (hI : Inv f set) (hc : set.canRecover = true) (rs : ReedSolomon) :
    set.RecoverExpects rs where
  template := by
    obtain ⟨template, _, ht, _⟩ := hI.toPlaced.anyShred hc
    exact ⟨template, ht⟩
  copies template shards ht hrec p shard hmem := by
    have hlen := reconstructed_length (rs.keeps _ _ hrec) hmem
    have hshard := template.erasureShard_length
    have hchain := template.chainedMerkleRoot_length
    have hsome := template.retransmitterSignature_isSome
    simp only [signatureSize, dataShredSize, hlen, hchain]
    refine ⟨trivial, by omega, fun sig hsig => ?_, _, recoveredBytes_eq set.signature template hlen⟩
    have hres : template.resigned = true := by simpa [hsig] using hsome.symm
    rw [hres, if_pos rfl] at hshard
    rw [sig.property]
    omega

end FecSet

namespace SlotState

/-- `data(index)` finds the set, and the shred in it. -/
def Lookup (state : SlotState) (index : ℕ) : Prop :=
  ∃ set x, state.sets (index - index % 32) = some set ∧ set.data ⟨index % 32, Position.mod_lt _⟩ = some x

/-- The bounds of a run that `try_complete` found are in order, and all of it is held. -/
def CompleteExpects (state : SlotState) (index : ℕ) : Prop :=
  ∀ s e, index ∉ state.consumed.ones → state.findSegment index = some (s, e) →
    s ≤ e ∧ e < maxShredsPerSlot ∧ ∀ j, s ≤ j → j ≤ e → state.Lookup j

theorem Assembling.completeExpects {state : SlotState} (hA : Assembling state) (index : ℕ) :
    state.CompleteExpects index := by
  intro s e hi hf
  obtain ⟨hrun, hsi, hie⟩ := (state.findSegment_iff index s e).mp hf
  refine ⟨hrun.le, state.received.bounded e (hrun.present e hrun.le le_rfl), fun j h1 h2 => ?_⟩
  have hfree := hA.run_unconsumed hrun hsi hie hi h1 h2
  obtain ⟨x, hx, _⟩ := hA.shred_of_unconsumed (hrun.present j h1 h2) hfree
  rw [shredAt, setAt] at hx
  cases hset : state.sets (j - j % 32) with
  | none =>
    rw [hset] at hx
    contradiction
  | some set =>
    rw [hset] at hx
    exact ⟨set, x, hset, hx⟩

variable [Hasher]

/-- Everything a call of `insert` takes for granted. -/
structure Expectations (state : SlotState) (x : Shred) (rs : Option ReedSolomon) (stats : Stats) : Prop where
  returns : ∃ r, state.insert x rs stats = .ok r
  position : (x.kind = .data → x.fecSetIndex ≤ x.index ∧ x.index - x.fecSetIndex < 32) ∧
    (x.kind = .code → 32 ≤ x.erasureShardIndex ∧ x.erasureShardIndex - 32 < 32)
  recovery : ∀ r, rs = some r → state.TakesIn x → ((state.setAt x.fecSetIndex).insert x).1.canRecover = true →
    ((state.setAt x.fecSetIndex).insert x).1.RecoverExpects r
  fresh : ∀ mid stats' fresh, state.store x rs stats = .ok (mid, stats', fresh) → fresh.length ≤ 32 ∧
    ∀ i ∈ fresh, x.fecSetIndex ≤ i ∧ ∃ (h : i - x.fecSetIndex < 32) (set : FecSet) (y : Shred),
      mid.sets x.fecSetIndex = some set ∧ set.data ⟨i - x.fecSetIndex, h⟩ = some y
  completes : ∀ mid stats' fresh, state.store x rs stats = .ok (mid, stats', fresh) →
    ∀ before i after st out, fresh = before ++ i :: after →
      Steps.runAll completeAt mid before = .ok (st, out) →
      st.CompleteExpects i ∧ ∀ st' out', st.tryComplete i = .ok (st', out') → st'.CompleteExpects (i + 1)

variable {state mid : SlotState} {x : Shred} {rs : Option ReedSolomon} {fresh indexes : List ℕ} {root : Hash32}
  {set' : FecSet}

/-- At most a whole set becomes available with one packet. -/
theorem Taken.fresh_length (h : Taken state x rs mid fresh root set' indexes) : fresh.length ≤ 32 := by
  have hsub : fresh ⊆ List.range' x.fecSetIndex 32 := by
    intro i hi
    obtain ⟨p, rfl, _⟩ := h.fresh_at i hi
    have hp := p.isLt
    exact List.mem_range'_1.mpr ⟨by omega, by omega⟩
  have hle := (List.subperm_of_subset h.fresh_nodup hsub).length_le
  rwa [List.length_range'] at hle

omit [Hasher] in
theorem expects_position (x : Shred) : (x.kind = .data → x.fecSetIndex ≤ x.index ∧ x.index - x.fecSetIndex < 32) ∧
    (x.kind = .code → 32 ≤ x.erasureShardIndex ∧ x.erasureShardIndex - 32 < 32) := by
  constructor
  · intro hk
    obtain ⟨p, hp⟩ := x.exists_position_data hk
    have hpos := x.position_data hp
    have hlt := p.isLt
    omega
  · intro hk
    obtain ⟨p, hp⟩ := x.exists_position_code hk
    have hpos := x.position_code hp
    have hlt := p.isLt
    omega

theorem SlotInv.expectations (hI : SlotInv state) (hx : x.fecSetIndex ≤ 32736) (rs : Option ReedSolomon)
    (stats : Stats) : Expectations state x rs stats := by
  obtain ⟨mid, stats', fresh, hstore, hst⟩ := store_cases hI.toAssembling hx rs stats
  have hmid := hst.assembling hx hI.toAssembling
  have hsame : ∀ mid₁ stats₁ fresh₁, state.store x rs stats = .ok (mid₁, stats₁, fresh₁) →
      mid₁ = mid ∧ fresh₁ = fresh := by
    intro mid₁ stats₁ fresh₁ h₁
    rw [hstore, Except.ok.injEq, Prod.mk.injEq, Prod.mk.injEq] at h₁
    exact ⟨h₁.1.symm, h₁.2.2.symm⟩
  refine ⟨(insert_ok_iff hI x rs stats).mpr fun _ => hx, expects_position x, ?_, ?_, ?_⟩
  · intro r _ hin hc
    obtain ⟨root, set', indexes, ht⟩ := hst.taken_of_takesIn hin
    rw [FecSet.insert_of_accepts ht.accepts] at hc ⊢
    exact FecSet.recoverExpects ((hI.setAt_inv _).accepted rfl ht.accepts) hc r
  · intro mid₁ stats₁ fresh₁ h₁
    obtain ⟨rfl, rfl⟩ := hsame _ _ _ h₁
    cases hst with
    | dropped _ => exact ⟨Nat.zero_le _, by simp⟩
    | turnedAway why _ _ _ _ => exact ⟨Nat.zero_le _, by simp⟩
    | taken mid fresh root set' indexes ht =>
      refine ⟨ht.fresh_length, fun i hi => ?_⟩
      obtain ⟨p, rfl, _, hsome⟩ := ht.fresh_at i hi
      obtain ⟨y, hy⟩ := Option.isSome_iff_exists.mp hsome
      have hp := p.isLt
      have hsub : x.fecSetIndex + (p : ℕ) - x.fecSetIndex = p := by omega
      have hfin : (⟨x.fecSetIndex + (p : ℕ) - x.fecSetIndex, by omega⟩ : Fin 32) = p := Fin.ext hsub
      refine ⟨by omega, by omega, set', y, by rw [ht.sets, Function.update_self], ?_⟩
      rw [hfin]
      exact hy
  · intro mid₁ stats₁ fresh₁ h₁ before i after st out _ hrun
    obtain ⟨rfl, rfl⟩ := hsame _ _ _ h₁
    obtain ⟨st₁, out₁, hrun₁, hE, _⟩ := (Emitting.refl hmid).completeAll before
    obtain ⟨rfl, rfl⟩ := Prod.mk.inj (Except.ok.inj (hrun.symm.trans hrun₁))
    refine ⟨hE.toAssembling.completeExpects i, fun st' out' hok => ?_⟩
    obtain ⟨st₂, out₂, hok₂, hE₂, _⟩ := hE.tryComplete i
    obtain ⟨rfl, rfl⟩ := Prod.mk.inj (Except.ok.inj (hok.symm.trans hok₂))
    exact hE₂.toAssembling.completeExpects (i + 1)

/-- No call of a sequence finds one of its expectations unmet. -/
theorem expectations_hold (stats : Stats) {inputs : List (Shred × Option ReedSolomon)} (h : IndexesInRange inputs) :
    ∀ before input after, inputs = before ++ input :: after →
      ∃ s out, insertAll stats before = .ok (s, out) ∧ Expectations s.1 input.1 input.2 s.2 := by
  intro before input after heq
  have hbefore : IndexesInRange before := fun i hi => h i (by simp [heq, hi])
  obtain ⟨s, out, hrun, hI⟩ := insertAll_total stats hbefore
  exact ⟨s, out, hrun, hI.expectations (h input (by simp [heq])) input.2 s.2⟩

omit [Hasher] in
/-- Of 32 code shreds the last one recovers the set and brings out all of its runs. -/
theorem expectations_hold_recovery :
    let inputOf := fun a : Fin 1024 × Position => @carriedInput sha256Hasher 7 sampleSlot_lt [] nil_fits a.1 a.2
    let before := (firstCodes ((List.finRange 32).take 31)).map inputOf
    let last := inputOf (0, .code 31)
    ∃ s out s' segments, @insertAll sha256Hasher Stats.default before = .ok (s, out) ∧
      @Expectations sha256Hasher s.1 last.1 last.2 s.2 ∧ @insertStep sha256Hasher s last = .ok (s', segments) ∧
      ∀ i < 32, (i, i) ∈ segments.map Segment.shreds := by
  let : Hasher := sha256Hasher
  intro inputOf before last
  have hplaces : carriedPlaces = firstCodes ((List.finRange 32).take 31) ++ (0, .code 31) :: [(1, .data 0)] := by decide
  have hsplit : carriedPlaces.map inputOf = before ++ last :: [inputOf (1, .data 0)] := by
    rw [hplaces, List.map_append]
    rfl
  have hall : (firstCodes (List.finRange 32)).map inputOf = before ++ [last] := by
    have hplaces : firstCodes (List.finRange 32) = firstCodes ((List.finRange 32).take 31) ++ [(0, .code 31)] := by decide
    rw [hplaces, List.map_append]
    rfl
  obtain ⟨s, out, hrun, hexp⟩ := expectations_hold Stats.default (carriedPlaces_indexes sampleSlot_lt nil_fits) _ _ _ hsplit
  obtain ⟨s₁, out₁, hrun₁, hout₁⟩ := firstCodes_emits sampleSlot_lt nil_fits Stats.default ((List.finRange 32).take 31)
  obtain ⟨rfl, rfl⟩ := Prod.mk.inj (Except.ok.inj (hrun.symm.trans hrun₁))
  obtain ⟨s', out', hrun', hout'⟩ := firstCodes_emits sampleSlot_lt nil_fits Stats.default (List.finRange 32)
  obtain ⟨t, os, segments, hrun₂, hstep, rfl⟩ := Steps.runAll_snoc_ok.mp ((congrArg _ hall).symm.trans hrun')
  obtain ⟨rfl, rfl⟩ := Prod.mk.inj (Except.ok.inj (hrun.symm.trans hrun₂))
  refine ⟨s, out, s', segments, hrun, hexp, hstep, fun i hi => ?_⟩
  refine List.mem_map.mpr ⟨_, ((List.mem_append.mp ((hout' _).mpr ⟨by decide, i, hi, rfl⟩)).resolve_left fun hold => ?_), rfl⟩
  exact absurd ((hout₁ _).mp hold).1 (by decide)

end SlotState
end Deshred
