import Mathlib.Data.Prod.Lex
import Deshred.Lib.KeyedSort
import Deshred.Decoding

/-!
# Degraded captures (tests/fixtures.rs)

Two captures of the same blocks, in any order and with any repetitions, give the same
entries for every slot, as long as each FEC set has the same shreds in both or enough
for its recovery.
-/

namespace Deshred
variable {E : Type}

/- Entries per slot, in shred order; `none` for a slot without a batch. -/
def bySlot (batches : List (EntryBatch E)) : ℕ → Option (List E) :=
  (KeyedSort.sortByKey (fun b : EntryBatch E => toLex (b.slot, b.shreds.1)) batches).foldl
    (fun out b => Function.update out b.slot (some ((out b.slot).getD [] ++ b.entries))) fun _ => none

/- Slot and first shred index. -/
def EntryBatch.key (b : EntryBatch E) : ℕ × ℕ := (b.slot, b.shreds.1)

/-- Decoding keeps the place of a run, and may drop it. -/
theorem decoded_keys (wincode : Wincode E) (raws : List RawBatch) :
    ((raws.flatMap (Deshredder.batchesOf wincode)).map EntryBatch.key).Sublist (raws.map fun b => (b.slot, b.shreds.1)) := by
  induction raws with
  | nil => exact List.Sublist.slnil
  | cons raw raws ih =>
    have hone : ((Deshredder.batchesOf wincode raw).map EntryBatch.key).Sublist [(raw.slot, raw.shreds.1)] := by
      unfold Deshredder.batchesOf
      split
      · exact List.Sublist.refl _
      · exact List.nil_sublist _
      · exact List.nil_sublist _
    rw [List.flatMap_cons, List.map_append, List.map_cons]
    exact hone.append ih

/-- A run stays delivered when more of the block is available. -/
theorem Block.Delivered.imp {B : Block} {recover recover' : Bool} {A A' : ℕ → Finset Position} {s e : ℕ}
    (h : B.Delivered recover A s e) (hmore : ∀ i, B.Available recover A i → B.Available recover' A' i) :
    B.Delivered recover' A' s e :=
  ⟨h.le, fun i h1 h2 => hmore i (h.available i h1 h2), h.closed, h.inner, h.starts.imp id (And.imp_left (hmore _))⟩

namespace Deshredder

theorem batchesOf_place {wincode : Wincode E} {raw : RawBatch} {b : EntryBatch E} (h : b ∈ batchesOf wincode raw) :
    b.slot = raw.slot ∧ b.shreds = raw.shreds ∧ batchesOf wincode raw = [b] := by
  unfold batchesOf at h ⊢
  split at h
  · rename_i hd
    rw [List.mem_singleton] at h
    rw [h]
    exact ⟨rfl, rfl, rfl⟩
  · contradiction
  · contradiction

variable [Hasher] {blocks : ℕ → Block} {config : Config} {rs : ReedSolomon} {a version : ℕ} {packets packets₁ packets₂ : List Bytes}
  {d d₁ d₂ : Deshredder} {out out₁ out₂ : List RawBatch} {Codeword : List Bytes → Prop}

/- Both feeds have the same shreds of every set, or enough of them for recovery. -/
def SameSupply (recover : Bool) (packets₁ packets₂ : List Bytes) : Prop :=
  ∀ slot f, arrivals packets₁ slot f = arrivals packets₂ slot f ∨
    recover = true ∧ 32 ≤ (arrivals packets₁ slot f).card ∧ 32 ≤ (arrivals packets₂ slot f).card

omit [Hasher] in
theorem SameSupply.available {recover : Bool} (h : SameSupply recover packets₁ packets₂) (B : Block) (slot i : ℕ) :
    B.Available recover (arrivals packets₁ slot) i ↔ B.Available recover (arrivals packets₂ slot) i := by
  unfold Block.Available
  rcases h slot (i - i % 32) with heq | ⟨hrec, h₁, h₂⟩
  · rw [heq]
  · have hp₁ : Present recover (arrivals packets₁ slot (i - i % 32)) (Block.place i) := .inr ⟨hrec, h₁⟩
    have hp₂ : Present recover (arrivals packets₂ slot (i - i % 32)) (Block.place i) := .inr ⟨hrec, h₂⟩
    exact and_congr_right fun _ => iff_of_true hp₁ hp₂

omit [Hasher] in
theorem SameSupply.delivered {recover : Bool} (h : SameSupply recover packets₁ packets₂) (B : Block) (slot s e : ℕ) :
    B.Delivered recover (arrivals packets₁ slot) s e ↔ B.Delivered recover (arrivals packets₂ slot) s e :=
  ⟨fun hd => hd.imp fun i => (h.available B slot i).mp, fun hd => hd.imp fun i => (h.available B slot i).mpr⟩

/-- What came out is the same, but for its order. -/
theorem Delivering.perm (h₁ : Delivering blocks config rs a packets₁ d₁ out₁)
    (h₂ : Delivering blocks config rs a packets₂ d₂ out₂) (hsame : SameSupply config.recover packets₁ packets₂) :
    out₁.Perm out₂ := by
  refine (List.perm_ext_iff_of_nodup h₁.nodup h₂.nodup).mpr fun b => ?_
  rw [h₁.mem_out, h₂.mem_out, (h₁.tracks b.slot).run_iff (h₁.slots.slotState b.slot).toAssembling,
    (h₂.tracks b.slot).run_iff (h₂.slots.slotState b.slot).toAssembling, hsame.delivered]

/-- Two batches of one slot do not start at the same index. -/
theorem Delivering.start_unique (h : Delivering blocks config rs a packets d out) {b c : RawBatch} (hb : b ∈ out)
    (hc : c ∈ out) (hslot : b.slot = c.slot) (hstart : b.shreds.1 = c.shreds.1) : b = c := by
  obtain ⟨hrunb, heqb⟩ := (h.mem_out b).mp hb
  obtain ⟨hrunc, heqc⟩ := (h.mem_out c).mp hc
  rw [← hslot, ← hstart] at hrunc heqc
  have hend := hrunb.end_unique hrunc le_rfl hrunb.le le_rfl hrunc.le
  rw [heqb, heqc, hend]

/-- Loss up to what recovery makes good, reordering and duplication change no slot's entries. -/
theorem degraded_replay_matches (blocks : ℕ → Block) (Codeword : List Bytes → Prop) (config : Config) (rs : ReedSolomon)
    (wincode : Wincode E) (version a : ℕ) (packets₁ packets₂ : List Bytes) (hL : 1 ≤ config.slotLookback)
    (h4 : 4 * config.slotLookback < 2 ^ 64) (ha : a + 2 * config.slotLookback < 2 ^ 64)
    (hB : ∀ t, (blocks t).Consistent Codeword t version)
    (hv : config.shredVersion = none ∨ config.shredVersion = some version) (hrs : rs.Rebuilds Codeword)
    (hp₁ : ∀ b ∈ packets₁, ∃ x, FromLeader blocks a config.slotLookback b x)
    (hp₂ : ∀ b ∈ packets₂, ∃ x, FromLeader blocks a config.slotLookback b x)
    (hsame : SameSupply config.recover packets₁ packets₂) :
    ∃ d₁ batches₁ d₂ batches₂, pushEach wincode (new config rs) packets₁ = .ok (d₁, batches₁) ∧
      pushEach wincode (new config rs) packets₂ = .ok (d₂, batches₂) ∧
      batches₁.length = batches₂.length ∧ bySlot batches₁ = bySlot batches₂ := by
  obtain ⟨d₁, out₁, hrun₁, hD₁⟩ := pushAll_delivering packets₁ hL h4 ha hB hv hrs hp₁
  obtain ⟨d₂, out₂, hrun₂, hD₂⟩ := pushAll_delivering packets₂ hL h4 ha hB hv hrs hp₂
  obtain ⟨d₁', heach₁, _⟩ := pushEach_follows wincode ⟨rfl, rfl, rfl, rfl⟩ hrun₁
  obtain ⟨d₂', heach₂, _⟩ := pushEach_follows wincode ⟨rfl, rfl, rfl, rfl⟩ hrun₂
  have hperm : (out₁.flatMap (batchesOf wincode)).Perm (out₂.flatMap (batchesOf wincode)) :=
    (hD₁.perm hD₂ hsame).flatMap_right _
  have hkey : ∀ b ∈ out₁.flatMap (batchesOf wincode), ∀ c ∈ out₁.flatMap (batchesOf wincode),
      toLex (b.slot, b.shreds.1) = toLex (c.slot, c.shreds.1) → b = c := by
    intro b hb c hc hbc
    obtain ⟨rawb, hrawb, hb⟩ := List.mem_flatMap.mp hb
    obtain ⟨rawc, hrawc, hc⟩ := List.mem_flatMap.mp hc
    obtain ⟨hslotb, hshredsb, honeb⟩ := batchesOf_place hb
    obtain ⟨hslotc, hshredsc, honec⟩ := batchesOf_place hc
    obtain ⟨hslot, hstart⟩ := Prod.mk.inj (toLex.injective hbc)
    rw [hslotb, hslotc] at hslot
    rw [hshredsb, hshredsc] at hstart
    rw [hD₁.start_unique hrawb hrawc hslot hstart, honec] at honeb
    exact (List.cons.inj honeb).1.symm
  refine ⟨d₁', _, d₂', _, heach₁, heach₂, hperm.length_eq, ?_⟩
  rw [bySlot, bySlot, KeyedSort.sortByKey_eq_of_perm hperm hkey]

omit [Hasher] in
/-- All data shreds of a set, and in their place its code shreds, backwards and then once more. -/
theorem degraded_replay_matches_codes :
    let packets₁ := (firstDatas (List.finRange 32)).map (@samplePacket sha256Hasher)
    let packets₂ := (firstCodes ((List.finRange 32).reverse ++ List.finRange 32)).map (@samplePacket sha256Hasher)
    ∃ d₁ batches₁ d₂ batches₂,
      @pushEach Entry sha256Hasher layoutDecoder (new ⟨none, 64, true⟩ sampleRs) packets₁ = .ok (d₁, batches₁) ∧
      @pushEach Entry sha256Hasher layoutDecoder (new ⟨none, 64, true⟩ sampleRs) packets₂ = .ok (d₂, batches₂) ∧
      bySlot batches₁ = bySlot batches₂ ∧ batches₁.Perm ((List.range 32).map sampleBatch) := by
  let : Hasher := sha256Hasher
  intro packets₁ packets₂
  have hsent : ∀ places : List (Fin 1024 × Position), (∀ a ∈ places, a.1 = 0) →
      ∀ b ∈ places.map samplePacket, ∃ x, FromLeader sampleBlocks 7 64 b x := by
    intro places hp b hb
    obtain ⟨place, hplace, rfl⟩ := List.mem_map.mp hb
    exact ⟨_, carriedPacket_fromLeader sampleSlot_lt sampleRun_fits (.inl (hp place hplace)) 64⟩
  have hdata : ∀ a ∈ firstDatas (List.finRange 32), a.1 = 0 := fun a ha => (mem_firstDatas.mp ha).1
  have hcode : ∀ a ∈ firstCodes ((List.finRange 32).reverse ++ List.finRange 32), a.1 = 0 :=
    fun a ha => (mem_firstCodes.mp ha).1
  have hA₁ := arrivedAt_arrivals sampleSlot_lt sampleRun_fits (firstDatas (List.finRange 32))
  have hA₂ := arrivedAt_arrivals sampleSlot_lt sampleRun_fits (firstCodes ((List.finRange 32).reverse ++ List.finRange 32))
  have hsame : SameSupply true packets₁ packets₂ := by
    intro slot f
    by_cases hset : slot = 7 ∧ f = 0
    · rw [hset.1, hset.2]
      exact .inr ⟨rfl, hA₁.datas.2.ge, hA₂.codes.2.ge⟩
    · left
      exact (arrivals_other sampleSlot_lt sampleRun_fits hdata hset).trans
        (arrivals_other sampleSlot_lt sampleRun_fits hcode hset).symm
  obtain ⟨d₁, batches₁, d₂, batches₂, h₁, h₂, _, heq⟩ := degraded_replay_matches sampleBlocks
    (CarriedCodeword 7 (encodeSegment sampleRun)) ⟨none, 64, true⟩ sampleRs layoutDecoder 0 7 packets₁ packets₂ (by decide)
    (by decide) (by decide) (carriedBlocks_consistent sampleSlot_lt sampleRun_fits) (.inl rfl) (carriedRs_rebuilds 7 _)
    (hsent _ hdata) (hsent _ hcode) hsame
  obtain ⟨d, out, heach, hout⟩ := pushEach_sample true (fun a ha => .inl (hdata a ha)) (fun i => by
    refine (firstDatas_available sampleSlot_lt sampleRun_fits hA₁ i).trans ?_
    simp) (show 32 ≤ 64 by decide)
  obtain ⟨rfl, rfl⟩ := Prod.mk.inj (Except.ok.inj (h₁.symm.trans heach))
  exact ⟨d₁, batches₁, d₂, batches₂, h₁, h₂, heq, hout⟩

end Deshredder
end Deshred
