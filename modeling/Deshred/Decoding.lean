import Deshred.Delivery
import Deshred.Replay
import Deshred.Segment

/-!
# Decoding a run (entry.rs)

`decode` leaves the bytes of a run to a decoder for a vector of entries. The one below
reads the layout field by field: it takes what a leader writes, with anything behind it,
and nothing else.
-/

namespace Deshred
open Scanner View

namespace Entry

/-- The entry can be told from its encoding. -/
structure Readable (e : Entry) : Prop where
  numHashes : e.numHashes < 2 ^ 64
  hash : e.hash.length = 32
  count : e.transactions.length < 2 ^ 64
  transactions : ∀ t ∈ e.transactions, t.Valid

theorem WellFormed.readable {e : Entry} (h : e.WellFormed) : e.Readable where
  numHashes := h.numHashes
  hash := h.hash
  count := h.transactions.1
  transactions t ht := (h.transactions.2 t ht).valid

end Entry

def readEntry : Scan Entry := do
  let numHashes ← u64
  let hash ← View.take 32
  let numTransactions ← u64
  let transactions ← collect readTransaction numTransactions
  pure ⟨numHashes, hash, transactions⟩

def readSegment : Scan (List Entry) := do
  let numEntries ← u64
  collect readEntry numEntries

theorem codec_entry : Codec readEntry Entry.encode Entry.Readable := by
  refine CodecOn.step (fun e => e.numHashes)
    (fun e => e.hash ++ (leBytes 8 e.transactions.length ++ e.transactions.flatMap Transaction.encode)) codec_u64
    (fun e h => h.numHashes) (fun _ _ => rfl) fun numHashes hnum => ?_
  refine CodecOn.step (fun e => e.hash)
    (fun e => leBytes 8 e.transactions.length ++ e.transactions.flatMap Transaction.encode) (Codec.take _ 32)
    (fun e h => h.1.hash) (fun _ _ => rfl) fun hash hhash => ?_
  refine CodecOn.step (fun e => e.transactions.length) (fun e => e.transactions.flatMap Transaction.encode) codec_u64
    (fun e h => h.1.1.count) (fun _ _ => rfl) fun n hn => ?_
  refine CodecOn.step (fun e => e.transactions) (fun _ => []) (codec_transaction.collect n)
    (fun e h => ⟨h.2, h.1.1.1.transactions⟩) (fun _ _ => (List.append_nil _).symm) fun transactions htxs => ?_
  apply Codec.pure rfl
  intro e
  constructor
  · rintro ⟨⟨⟨⟨_, rfl⟩, rfl⟩, _⟩, rfl⟩
    rfl
  · rintro rfl
    obtain ⟨hlen, hvalid⟩ := htxs
    exact ⟨⟨⟨⟨⟨hnum, hhash, hlen ▸ hn, hvalid⟩, rfl⟩, rfl⟩, hlen⟩, rfl⟩

theorem codec_segment : Codec readSegment encodeSegment fun es => es.length < 2 ^ 64 ∧ ∀ e ∈ es, e.Readable := by
  refine CodecOn.step (fun es => es.length) (fun es => es.flatMap Entry.encode) codec_u64 (fun es h => h.1)
    (fun _ _ => rfl) fun n hn => ?_
  refine (codec_entry.collect n).congr (fun es => ?_) fun _ _ => rfl
  constructor
  · rintro ⟨rfl, hes⟩
    exact ⟨⟨hn, hes⟩, rfl⟩
  · rintro ⟨⟨_, hes⟩, hlen⟩
    exact ⟨hlen, hes⟩

/-- Entries by the layout; bytes that are left over are ignored. -/
def layoutDecoder : Wincode Entry where
  deserialize bytes :=
    match readSegment.run ⟨bytes, 0⟩ with
    | .ok (es, _) => some es
    | .error _ => none
  transactions e := e.transactions.length

/-- It takes the encodings of readable entries and nothing else. -/
theorem layoutDecoder_deserialize_iff (bytes : Bytes) (es : List Entry) : layoutDecoder.deserialize bytes = some es ↔
    (es.length < 2 ^ 64 ∧ ∀ e ∈ es, e.Readable) ∧ ∃ padding, bytes = encodeSegment es ++ padding := by
  constructor
  · intro h
    simp only [layoutDecoder] at h
    split at h
    · rename_i es' c' hrun
      obtain rfl := Option.some.inj h
      obtain ⟨hes, padding, hbytes, _⟩ := codec_segment.exact [] bytes es' c' trivial hrun
      exact ⟨hes, padding, hbytes⟩
    · contradiction
  · rintro ⟨hes, padding, rfl⟩
    have hread := codec_segment.reads es hes [] padding
    rw [List.nil_append, List.length_nil] at hread
    simp only [layoutDecoder, hread]

/-- What a leader writes into a run is decoded, unless it is an empty vector: that
looks like a block marker. -/
theorem decode_encodeSegment {es : List Entry} (hne : es ≠ []) (hcount : es.length < 2 ^ 64)
    (hes : ∀ e ∈ es, e.WellFormed) (padding : Bytes) :
    decode layoutDecoder (encodeSegment es ++ padding) = some (.entries es) := by
  have hmarker : ¬ (8 ≤ (encodeSegment es ++ padding).length ∧
      (encodeSegment es ++ padding).take 8 = List.replicate 8 0) := by
    rintro ⟨_, hzero⟩
    rw [encodeSegment, List.append_assoc, List.take_left' (leBytes_length 8 _)] at hzero
    have hval := congrArg leVal hzero
    rw [leVal_leBytes 8 _ hcount] at hval
    exact hne (List.length_eq_zero_iff.mp hval)
  have hread := (layoutDecoder_deserialize_iff (encodeSegment es ++ padding) es).mpr
    ⟨⟨hcount, fun e he => (hes e he).readable⟩, padding, rfl⟩
  rw [decode, if_neg hmarker, hread, Option.map_some]

/-! ### A sample run -/

/- An entry without transactions. -/
def tick : Entry := ⟨5, List.replicate 32 9, []⟩

/- A tick, and an entry with one transaction. -/
def sampleRun : List Entry := [tick, ⟨6, List.replicate 32 8, [.legacyOrV0 emptyTx]⟩]

theorem sampleRun_wellFormed : ∀ e ∈ sampleRun, e.WellFormed := by
  intro e he
  simp only [sampleRun, List.mem_cons, List.not_mem_nil, or_false] at he
  rcases he with rfl | rfl
  · exact ⟨by decide, rfl, by decide, List.forall_mem_nil _⟩
  · refine ⟨by decide, rfl, by decide, fun t ht => ?_⟩
    rw [List.mem_singleton.mp ht]
    exact emptyTx_wellFormed

theorem sampleRun_fits : (encodeSegment sampleRun).length ≤ 963 := by
  have htx : (Transaction.encode (.legacyOrV0 emptyTx)).length = 38 := by decide
  simp only [encodeSegment, sampleRun, tick, Entry.encode, List.flatMap_cons, List.flatMap_nil, List.length_append,
    List.length_nil, leBytes_length, List.length_replicate, htx]
  decide

theorem decode_sampleRun : decode layoutDecoder (encodeSegment sampleRun) = some (.entries sampleRun) := by
  have hcount : sampleRun.length < 2 ^ 64 := show 2 < 2 ^ 64 by decide
  have h := decode_encodeSegment (List.cons_ne_nil tick _) hcount sampleRun_wellFormed []
  rwa [List.append_nil] at h

def sampleRs : ReedSolomon := carriedRs 7 (encodeSegment sampleRun)

/- The batch of one shred. -/
def sampleBatch (i : ℕ) : EntryBatch Entry := ⟨7, (i, i), false, sampleRun⟩

section
variable [Hasher]

/- Slot 7, the run in every shred. -/
def sampleBlocks : ℕ → Block := Deshredder.carriedBlocks sampleSlot_lt sampleRun_fits

def samplePacket (place : Fin 1024 × Position) : Bytes := Deshredder.carriedPacket sampleSlot_lt sampleRun_fits place

theorem samplePacket_length (p : Fin 32) : (samplePacket (0, .data p)).length = 1203 := by
  have hposition := (carriedSet_consistent sampleSlot_lt sampleRun_fits 0).position (.data p)
  rw [samplePacket, Deshredder.carriedPacket, Shred.bytes_length, (Shred.position_data _ hposition).1]
  rfl

theorem sampleBlocks_slot : sampleBlocks 7 = carriedBlock sampleSlot_lt sampleRun_fits :=
  Deshredder.carriedBlocks_slot sampleSlot_lt sampleRun_fits

namespace Deshredder
variable {d d₂ : Deshredder} {n : ℕ}

theorem batchesOf_sample {i : ℕ} (hi : i < 64) :
    batchesOf layoutDecoder (leaderBatch sampleBlocks 7 i i) = [sampleBatch i] := by
  rw [leaderBatch, sampleBlocks_slot, carriedBlock_segment sampleSlot_lt sampleRun_fits hi, batchesOf, rawBatch, decode_sampleRun]
  rfl

theorem batchesOf_samples {raws : List RawBatch} {first k : ℕ}
    (h : raws.Perm ((List.range' first k).map fun i => leaderBatch sampleBlocks 7 i i)) (hk : first + k ≤ 64) :
    (raws.flatMap (batchesOf layoutDecoder)).Perm ((List.range' first k).map sampleBatch) := by
  refine (h.flatMap_right _).trans (List.Perm.of_eq ?_)
  rw [List.flatMap_map, List.map_eq_flatMap]
  refine List.flatMap_congr fun i hi => ?_
  have hi := List.mem_range'_1.mp hi
  exact batchesOf_sample (by omega)

/-- Datagrams that make the first `n` shreds available bring out so many batches. -/
theorem pushEach_sample (recover : Bool) {places : List (Fin 1024 × Position)} (hp : ∀ a ∈ places, a.1 = 0 ∨ a.1 = 1)
    (havail : ∀ i, (carriedBlock sampleSlot_lt sampleRun_fits).Available recover (arrivals (places.map samplePacket) 7) i ↔ i < n)
    (hn : n ≤ 64) : ∃ d out,
      pushEach layoutDecoder (new ⟨none, 64, recover⟩ sampleRs) (places.map samplePacket) = .ok (d, out) ∧
      out.Perm ((List.range n).map sampleBatch) := by
  obtain ⟨d, raws, hrun, hD⟩ := carried_delivering sampleSlot_lt sampleRun_fits (by decide) recover hp
  obtain ⟨d', heach, _⟩ := pushEach_follows layoutDecoder ⟨rfl, rfl, rfl, rfl⟩ hrun
  have hperm := hD.carried_perm sampleSlot_lt sampleRun_fits havail
  rw [List.range_eq_range'] at hperm ⊢
  exact ⟨d', _, heach, batchesOf_samples hperm (by omega)⟩

/-- A Deshredder that was fed the first `n` data shreds of the sample block and no others,
but for its counters. -/
structure Primed (n : ℕ) (d : Deshredder) : Prop where
  le : n ≤ 32
  delivering : ∃ ps out, (∀ p : Fin 32, p ∈ ps ↔ (p : ℕ) < n) ∧
    Delivering sampleBlocks ⟨none, 64, true⟩ sampleRs 7 ((firstDatas ps).map samplePacket) d out

theorem Primed.new : Primed 0 (new ⟨none, 64, true⟩ sampleRs) where
  le := Nat.zero_le 32
  delivering := ⟨[], [], by simp, Delivering.new ..⟩

theorem Primed.same (h : Primed n d) (hs : SameButStats d d₂) : Primed n d₂ := by
  obtain ⟨ps, out, hps, hD⟩ := h.delivering
  rw [hs.eq]
  exact ⟨h.le, ps, out, hps, { hD with }⟩

theorem firstDatas_first {ps : List (Fin 32)} (hn : n ≤ 32) (hps : ∀ p : Fin 32, p ∈ ps ↔ (p : ℕ) < n) (i : ℕ) :
    (carriedBlock sampleSlot_lt sampleRun_fits).Available true (arrivals ((firstDatas ps).map samplePacket) 7) i ↔ i < n := by
  have hA := arrivedAt_arrivals sampleSlot_lt sampleRun_fits (firstDatas ps)
  refine (firstDatas_available sampleSlot_lt sampleRun_fits hA i).trans ?_
  rw [hps, Block.place]
  show i < 32 ∧ i % 32 < n ↔ i < n
  omega

/-- A data shred brings out what it adds. -/
theorem Primed.push_adds {m : ℕ} (h : Primed n d) (k : Fin 32) (hm : m ≤ 32) (hnm : n ≤ m)
    (hk : ∀ p : Fin 32, (p : ℕ) < n ∨ p = k ↔ (p : ℕ) < m) : ∃ d' out,
      d.push layoutDecoder (samplePacket (0, .data k)) = .ok (d', out) ∧ Primed m d' ∧
      out.Perm ((List.range' n (m - n)).map sampleBatch) := by
  obtain ⟨ps, out, hps, hD⟩ := h.delivering
  have hx : FromLeader sampleBlocks 7 64 (samplePacket (0, .data k)) _ :=
    carriedPacket_fromLeader sampleSlot_lt sampleRun_fits (.inl rfl) 64
  obtain ⟨d', raws, hok, hD'⟩ := hD.pushed (by decide) (by decide) (by decide)
    (carriedBlocks_consistent sampleSlot_lt sampleRun_fits) (.inl rfl) (carriedRs_rebuilds 7 _) hx
  have hsnoc : (firstDatas ps).map samplePacket ++ [samplePacket (0, .data k)] = (firstDatas (ps ++ [k])).map samplePacket := by
    rw [firstDatas, firstDatas, List.map_append, List.map_append]
    rfl
  have hps' : ∀ p : Fin 32, p ∈ ps ++ [k] ↔ (p : ℕ) < m := by
    intro p
    rw [List.mem_append, List.mem_singleton, hps]
    exact hk p
  rw [hsnoc] at hD'
  have hold := hD.carried_perm sampleSlot_lt sampleRun_fits (firstDatas_first h.le hps)
  have hnew := hD'.carried_perm sampleSlot_lt sampleRun_fits (firstDatas_first hm hps')
  have hsplit : List.range m = List.range n ++ List.range' n (m - n) := by
    have happend : List.range' 0 n ++ List.range' (0 + n) (m - n) = List.range' 0 (n + (m - n)) := List.range'_append_1
    rw [Nat.zero_add, Nat.add_sub_cancel' hnm] at happend
    rw [List.range_eq_range', List.range_eq_range', happend]
  rw [hsplit, List.map_append] at hnew
  have hraws := (List.perm_append_left_iff _).mp ((hold.symm.append_right raws).trans hnew)
  obtain ⟨d'', hok', hsame⟩ := push_follows layoutDecoder ⟨rfl, rfl, rfl, rfl⟩ hok
  have hT : Primed m d' := ⟨hm, ps ++ [k], _, hps', hD'⟩
  exact ⟨d'', _, hok', hT.same hsame, batchesOf_samples hraws (by omega)⟩

/-- The next one brings out its batch. -/
theorem Primed.next (h : Primed n d) (hn : n < 32) : ∃ d',
    d.push layoutDecoder (samplePacket (0, .data ⟨n, hn⟩)) = .ok (d', [sampleBatch n]) ∧ Primed (n + 1) d' := by
  obtain ⟨d', out, hok, hT, hperm⟩ := h.push_adds ⟨n, hn⟩ hn (Nat.le_succ n) fun p => by
    rw [Fin.ext_iff]
    show (p : ℕ) < n ∨ (p : ℕ) = n ↔ (p : ℕ) < n + 1
    omega
  have hone : n.succ - n = 1 := by omega
  rw [hone] at hperm
  rw [List.perm_singleton.mp hperm] at hok
  exact ⟨d', hok, hT⟩

/-- One that came before brings out nothing. -/
theorem Primed.again (h : Primed n d) {k : Fin 32} (hk : (k : ℕ) < n) : ∃ d',
    d.push layoutDecoder (samplePacket (0, .data k)) = .ok (d', []) ∧ Primed n d' := by
  obtain ⟨d', out, hok, hT, hperm⟩ := h.push_adds k h.le le_rfl fun p => by
    rw [Fin.ext_iff]
    omega
  rw [Nat.sub_self] at hperm
  rw [List.perm_nil.mp hperm] at hok
  exact ⟨d', hok, hT⟩

end Deshredder
end
end Deshred
