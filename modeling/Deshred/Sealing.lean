import Deshred.Leader
import Deshred.Merkle
import Deshred.Wire

/-!
# Sealing a FEC set

The sending side of a FEC set: 64 drafts without proofs, a Merkle tree over them, and
its proof appended to each. What comes out parses, and every shred of it leads to the
root of the tree.
-/

namespace Deshred

/- Where the erasure shard of a position stands among the 64. -/
def Position.erasureIndex : Position → ℕ
  | .data p => p
  | .code p => 32 + p

def Position.all : List Position := (List.finRange 32).map .data ++ (List.finRange 32).map .code

theorem Position.all_length : Position.all.length = 64 := rfl

theorem Position.erasureIndex_lt (q : Position) : q.erasureIndex < 64 := by
  cases q with
  | data p =>
    have hp := p.isLt
    simp only [erasureIndex]
    omega
  | code p =>
    have hp := p.isLt
    simp only [erasureIndex]
    omega

theorem Position.all_getElem (q : Position) : Position.all[q.erasureIndex]? = some q := by
  cases q with
  | data p =>
    have hp : (p : ℕ) < ((List.finRange 32).map Position.data).length := by simp
    rw [Position.all, erasureIndex, List.getElem?_append_left hp, List.getElem?_map]
    simp
  | code p =>
    have hp : ((List.finRange 32).map Position.data).length ≤ 32 + (p : ℕ) := by simp
    rw [Position.all, erasureIndex, List.getElem?_append_right hp, List.getElem?_map]
    simp

namespace Shred

theorem erasureShardIndex_eq (x : Shred) : x.erasureShardIndex = x.position.erasureIndex := by
  cases hp : x.position with
  | data p => exact (x.position_data hp).2.2.2
  | code p => exact (x.position_code hp).2

theorem parts_of_bytes {x : Shred} {start shard chained proof : Bytes} (hr : x.resigned = false)
    (hb : x.bytes = start ++ shard ++ chained ++ proof) (hs : start.length = x.erasureStart)
    (hc : chained.length = 32) (hp : proof.length = 20 * x.proofSize) :
    x.erasureShard = shard ∧ x.chainedMerkleRoot = chained ∧ x.merkleProof = proof ∧
      x.leafBytes = (start ++ shard ++ chained).drop 64 := by
  have hl := x.layout
  have hlen := congrArg List.length hb
  simp only [List.length_append] at hlen
  simp only [hr, Bool.false_eq_true, ↓reduceIte, Nat.add_zero] at hl
  have hse := x.erasure_in_bounds
  have hoff : x.proofOffset = headersSize x.kind + x.capacity + 32 := rfl
  have hend : x.erasureEnd = headersSize x.kind + x.capacity := rfl
  have hpe : x.proofEnd = x.proofOffset + x.proofSize * 20 := rfl
  have h1 : x.erasureEnd = start.length + shard.length := by omega
  have h2 : x.proofOffset = start.length + shard.length + chained.length := by omega
  refine ⟨?_, ?_, ?_, ?_⟩
  · have hcut : x.bytes = start ++ (shard ++ (chained ++ proof)) := by rw [hb]; simp
    have hwid : x.erasureEnd - x.erasureStart = shard.length := by omega
    simp only [erasureShard, slice]
    rw [hwid, ← hs, hcut, List.drop_left, List.take_left]
  · have hcut : x.bytes = (start ++ shard) ++ (chained ++ proof) := by rw [hb]; simp
    have hlo : x.proofOffset - merkleRootSize = (start ++ shard).length := by
      rw [List.length_append, merkleRootSize]
      omega
    have hwid : x.proofOffset - (start ++ shard).length = chained.length := by
      rw [List.length_append]
      omega
    simp only [chainedMerkleRoot, slice, hlo]
    rw [hwid, hcut, List.drop_left, List.take_left]
  · have hlo : x.proofOffset = (start ++ shard ++ chained).length := by
      simp only [List.length_append]
      omega
    have hwid : x.proofEnd - x.proofOffset = proof.length := by omega
    simp only [merkleProof, slice]
    rw [hwid, hlo, hb, List.drop_left, List.take_of_length_le le_rfl]
  · have hlo : x.proofOffset = (start ++ shard ++ chained).length := by
      simp only [List.length_append]
      omega
    have h64 : 64 ≤ (start ++ shard ++ chained).length := by
      have := x.leaf_in_bounds.1
      rw [← hlo]
      exact this
    simp only [leafBytes, slice, signatureSize]
    rw [hlo, hb, List.drop_append_of_le_length h64, List.take_left' (by rw [List.length_drop])]

end Shred

/-- The shreds of a set before they are sealed. -/
structure SetDraft where
  signature : Signature
  slot : ℕ
  fecSetIndex : ℕ
  version : Position → ℕ
  parentOffset : ℕ
  flags : Fin 32 → UInt8
  size : Fin 32 → ℕ
  payload : Fin 32 → Bytes
  shard : Fin 32 → Bytes
  chainedMerkleRoot : Bytes

namespace SetDraft

structure Valid (D : SetDraft) : Prop where
  slot : D.slot < 2 ^ 64
  fecSetIndex : D.fecSetIndex % 32 = 0 ∧ D.fecSetIndex ≤ 32736
  version : ∀ q, D.version q < 2 ^ 16
  parent : D.parentOffset < 2 ^ 16 ∧ D.parentOffset ≤ D.slot ∧ (D.parentOffset = 0 → D.slot = 0)
  flags : ∀ p, (D.flags p &&& 0x80 ≠ 0 → D.flags p &&& flagDataComplete ≠ 0) ∧
    (D.flags p &&& flagLastInSlot = flagLastInSlot → (p : ℕ) = 31)
  size : ∀ p, 88 ≤ D.size p ∧ D.size p ≤ 88 + 963
  payload : ∀ p, (D.payload p).length = 963
  shard : ∀ p, (D.shard p).length = 987
  chainedMerkleRoot : D.chainedMerkleRoot.length = 32

/- Variant 0x96: a data shred with 6 proof entries. -/
def dataPacket (D : SetDraft) (p : Fin 32) (proof : Bytes) : DataPacket where
  signature := D.signature
  variant := 0x96
  slot := D.slot
  index := D.fecSetIndex + p
  version := D.version (.data p)
  fecSetIndex := D.fecSetIndex
  parentOffset := D.parentOffset
  flags := D.flags p
  size := D.size p
  body := D.payload p ++ D.chainedMerkleRoot ++ proof

def codePacket (D : SetDraft) (p : Fin 32) (proof : Bytes) : CodePacket where
  signature := D.signature
  variant := 0x66
  slot := D.slot
  index := D.fecSetIndex + p
  version := D.version (.code p)
  fecSetIndex := D.fecSetIndex
  position := p
  body := D.shard p ++ D.chainedMerkleRoot ++ proof

def packet (D : SetDraft) (proof : Bytes) : Position → Bytes
  | .data p => (D.dataPacket p proof).packet
  | .code p => (D.codePacket p proof).packet

/- The headers that come before the erasure shard. -/
def start (D : SetDraft) : Position → Bytes
  | .data _ => D.signature.val
  | .code p => (D.codePacket p []).toCommonHeader.bytes ++ (leBytes 2 32 ++ leBytes 2 32 ++ leBytes 2 (p : ℕ))

/-- What the erasure code sees of a position. -/
def erasureShard (D : SetDraft) : Position → Bytes
  | .data p => [0x96] ++ leBytes 8 D.slot ++ leBytes 4 (D.fecSetIndex + p) ++ leBytes 2 (D.version (.data p)) ++
      leBytes 4 D.fecSetIndex ++ leBytes 2 D.parentOffset ++ [D.flags p] ++ leBytes 2 (D.size p) ++ D.payload p
  | .code p => D.shard p

theorem packet_eq (D : SetDraft) (proof : Bytes) (q : Position) :
    D.packet proof q = D.start q ++ D.erasureShard q ++ D.chainedMerkleRoot ++ proof := by
  cases q with
  | data p =>
    simp [packet, DataPacket.packet, DataPacket.tail, dataPacket, CommonHeader.bytes, start, erasureShard]
  | code p =>
    simp [packet, CodePacket.packet, CodePacket.tail, codePacket, CommonHeader.bytes, start, erasureShard]

variable {D : SetDraft}

theorem dataPacket_valid (hD : D.Valid) (p : Fin 32) {proof : Bytes} (hp : proof.length = 120) :
    (D.dataPacket p proof).Valid false 963 where
  slot := hD.slot
  index := by
    have h := hD.fecSetIndex
    have hlt := p.isLt
    simp only [dataPacket]
    omega
  version := hD.version _
  fecSetIndex := by
    have h := hD.fecSetIndex
    simp only [dataPacket]
    omega
  kind := by
    show variantKind 0x96 = _
    decide
  room := by
    show Deshred.capacity .data ((0x96 : UInt8) &&& 0x0F).toNat false = _
    decide
  body := by
    simp only [dataPacket, List.length_append, hD.payload p, hD.chainedMerkleRoot, hp]
  aligned := hD.fecSetIndex.1
  inSet := by
    have hlt := p.isLt
    simp only [dataPacket]
    omega
  parent := hD.parent
  flags := by
    obtain ⟨h1, h2⟩ := hD.flags p
    refine ⟨h1, fun hl => ?_⟩
    have h31 := h2 hl
    have ha := hD.fecSetIndex
    simp only [dataPacket]
    omega
  size := hD.size p

theorem codePacket_valid (hD : D.Valid) (p : Fin 32) {proof : Bytes} (hp : proof.length = 120) :
    (D.codePacket p proof).Valid false 987 where
  slot := hD.slot
  index := by
    have h := hD.fecSetIndex
    have hlt := p.isLt
    simp only [codePacket]
    omega
  version := hD.version _
  fecSetIndex := by
    have h := hD.fecSetIndex
    simp only [codePacket]
    omega
  kind := by
    show variantKind 0x66 = _
    decide
  room := by
    show Deshred.capacity .code ((0x66 : UInt8) &&& 0x0F).toNat false = _
    decide
  body := by
    simp only [codePacket, List.length_append, hD.shard p, hD.chainedMerkleRoot, hp]
  aligned := hD.fecSetIndex.1
  position := by
    have hlt := p.isLt
    simp only [codePacket]
    omega

variable [Hasher]

/- The hashed part of a draft: everything after the signature. -/
def leafBytes (D : SetDraft) (q : Position) : Bytes := (D.packet [] q).drop 64

def leaves (D : SetDraft) : List Hash32 := Position.all.map fun q => Merkle.leaf (D.leafBytes q)

theorem leaves_length (D : SetDraft) : D.leaves.length = 64 := by
  rw [leaves, List.length_map, Position.all_length]

theorem leaves_ne_nil (D : SetDraft) : D.leaves ≠ [] := by
  intro h
  have hl := D.leaves_length
  rw [h] at hl
  contradiction

def tree (D : SetDraft) : Merkle.Tree := Merkle.Tree.new D.leaves D.leaves_ne_nil

def proof (D : SetDraft) (q : Position) : Bytes :=
  (D.tree.proof q.erasureIndex (by
    have hq := q.erasureIndex_lt
    have hn : D.tree.numLeaves = 64 := D.leaves_length
    omega)).flatten

theorem proof_length (D : SetDraft) (q : Position) : (D.proof q).length = 120 := by
  have hi : q.erasureIndex < D.leaves.length := by
    rw [D.leaves_length]
    exact q.erasureIndex_lt
  have hclog : Nat.clog 2 D.leaves.length = 6 := by
    rw [D.leaves_length]
    exact Nat.clog_pow 2 6 (by decide)
  have hp : D.proof q = (MerkleLevels.siblings Merkle.cut Merkle.join 6 D.leaves q.erasureIndex).flatten := by
    rw [← hclog, ← Merkle.Tree.proof_eq D.leaves_ne_nil _ hi]
    rfl
  have hall : ∀ c ∈ MerkleLevels.siblings Merkle.cut Merkle.join 6 D.leaves q.erasureIndex,
      c.length = Merkle.proofEntrySize := MerkleLevels.siblings_forall _ _ Merkle.cut_length _ _ _
  have hsum : ∀ l : List Bytes, (∀ c ∈ l, c.length = Merkle.proofEntrySize) → l.flatten.length = 20 * l.length := by
    intro l
    induction l with
    | nil => simp
    | cons c l ih =>
      intro h
      have hc := h c (List.mem_cons_self ..)
      have hl := ih fun d hd => h d (List.mem_cons_of_mem _ hd)
      simp only [List.flatten_cons, List.length_append, List.length_cons, hc, hl, Merkle.proofEntrySize]
      omega
  rw [hp, hsum _ hall, MerkleLevels.siblings_length]

/-- The set as it is sent. -/
def sealedSet (D : SetDraft) (hD : D.Valid) : LeaderSet where
  data p := (D.dataPacket p (D.proof (.data p))).shred (dataPacket_valid hD p (D.proof_length _))
  code p := (D.codePacket p (D.proof (.code p))).shred (codePacket_valid hD p (D.proof_length _))

variable (hD : D.Valid)

theorem sealedSet_bytes (q : Position) : ((D.sealedSet hD).shred q).bytes = D.packet (D.proof q) q := by
  cases q <;> rfl

theorem sealedSet_fields (q : Position) : ((D.sealedSet hD).shred q).slot = D.slot ∧
    ((D.sealedSet hD).shred q).version = D.version q ∧ ((D.sealedSet hD).shred q).fecSetIndex = D.fecSetIndex ∧
    ((D.sealedSet hD).shred q).proofSize = 6 ∧ ((D.sealedSet hD).shred q).resigned = false := by
  have h6 : ((0x96 : UInt8) &&& 0x0F).toNat = 6 ∧ ((0x66 : UInt8) &&& 0x0F).toNat = 6 := by decide
  cases q with
  | data p => exact ⟨rfl, rfl, rfl, h6.1, rfl⟩
  | code p => exact ⟨rfl, rfl, rfl, h6.2, rfl⟩

theorem sealedSet_retransmitterSignature (q : Position) :
    ((D.sealedSet hD).shred q).retransmitterSignature = none := by
  cases q with
  | data p => rfl
  | code p => rfl

theorem sealedSet_dataComplete (p : Fin 32) :
    ((D.sealedSet hD).data p).dataComplete = (D.flags p &&& flagDataComplete ≠ 0 : Bool) := rfl

theorem sealedSet_lastInSlot (p : Fin 32) :
    ((D.sealedSet hD).data p).lastInSlot = (D.flags p &&& flagLastInSlot = flagLastInSlot : Bool) := rfl

theorem sealedSet_erasureShard_length (q : Position) :
    ((D.sealedSet hD).shred q).erasureShard.length = 987 := by
  have hl := ((D.sealedSet hD).shred q).erasureShard_length
  obtain ⟨_, _, _, hps, hres⟩ := sealedSet_fields hD q
  rw [hps, hres] at hl
  simp only [Bool.false_eq_true, ↓reduceIte] at hl
  omega

theorem sealedSet_position (q : Position) : ((D.sealedSet hD).shred q).position = q := by
  cases q with
  | data p =>
    have hk : ((D.sealedSet hD).shred (.data p)).kind = .data := rfl
    obtain ⟨r, hr⟩ := Shred.exists_position_data _ hk
    have hpos := Shred.position_data _ hr
    have hi : ((D.sealedSet hD).shred (.data p)).index = D.fecSetIndex + p := rfl
    have hf : ((D.sealedSet hD).shred (.data p)).fecSetIndex = D.fecSetIndex := rfl
    have hrp : r = p := Fin.ext (by omega)
    rw [hr, hrp]
  | code p =>
    have hk : ((D.sealedSet hD).shred (.code p)).kind = .code := rfl
    obtain ⟨r, hr⟩ := Shred.exists_position_code _ hk
    have hpos := Shred.position_code _ hr
    have hi : ((D.sealedSet hD).shred (.code p)).erasureShardIndex = 32 + p := rfl
    have hrp : r = p := Fin.ext (by omega)
    rw [hr, hrp]

theorem sealedSet_parts (q : Position) :
    ((D.sealedSet hD).shred q).erasureShard = D.erasureShard q ∧
      ((D.sealedSet hD).shred q).chainedMerkleRoot = D.chainedMerkleRoot ∧
      ((D.sealedSet hD).shred q).merkleProof = D.proof q ∧
      ((D.sealedSet hD).shred q).leafBytes = D.leafBytes q := by
  obtain ⟨_, _, _, hps, hres⟩ := sealedSet_fields hD q
  have hb := (sealedSet_bytes hD q).trans (D.packet_eq _ q)
  have hstart : (D.start q).length = ((D.sealedSet hD).shred q).erasureStart := by
    cases q with
    | data p => exact D.signature.property
    | code p =>
      have hlen := (D.codePacket p []).toCommonHeader.bytes_length
      have hes : ((D.sealedSet hD).shred (.code p)).erasureStart = 89 := rfl
      rw [hes, start, List.length_append, hlen]
      simp
  have hparts := Shred.parts_of_bytes hres hb hstart hD.chainedMerkleRoot (by rw [hps, D.proof_length])
  refine ⟨hparts.1, hparts.2.1, hparts.2.2.1, ?_⟩
  rw [hparts.2.2.2, leafBytes, D.packet_eq, List.append_nil]

theorem sealedSet_signature (q : Position) : ((D.sealedSet hD).shred q).signature = D.signature := by
  have hb := sealedSet_bytes hD q
  have hs := D.signature.property
  have hsplit : ∃ rest, D.packet (D.proof q) q = D.signature.val ++ rest := by
    cases q with
    | data p => exact ⟨_, by simp [packet, DataPacket.packet, dataPacket, CommonHeader.bytes]; rfl⟩
    | code p => exact ⟨_, by simp [packet, CodePacket.packet, codePacket, CommonHeader.bytes]; rfl⟩
  obtain ⟨rest, hrest⟩ := hsplit
  apply Subtype.ext
  simp only [Shred.signature, slice, signatureSize, List.drop_zero, Nat.sub_zero]
  rw [hb, hrest]
  exact List.take_left' hs

theorem sealedSet_merkleRoot (q : Position) : ((D.sealedSet hD).shred q).merkleRoot = some D.tree.root := by
  obtain ⟨_, _, hproof, hleaf⟩ := sealedSet_parts hD q
  have hi : q.erasureIndex < D.leaves.length := by
    rw [D.leaves_length]
    exact q.erasureIndex_lt
  have hget : D.leaves[q.erasureIndex] = Merkle.leaf (D.leafBytes q) := by
    have hat : D.leaves[q.erasureIndex]? = some (Merkle.leaf (D.leafBytes q)) := by
      rw [leaves, List.getElem?_map, q.all_getElem]
      rfl
    exact (List.getElem?_eq_some_iff.mp hat).2
  have hroot := Merkle.rootFromProof_proof D.leaves_ne_nil q.erasureIndex hi
  rw [hget] at hroot
  rw [Shred.merkleRoot, Shred.merkleLeaf, hproof, hleaf, Shred.erasureShardIndex_eq, sealedSet_position hD]
  exact hroot

omit [Hasher] in
theorem erasureShards_eq (S : LeaderSet) : S.erasureShards = Position.all.map fun q => (S.shred q).erasureShard := by
  rw [LeaderSet.erasureShards, Position.all, List.map_append, List.map_map, List.map_map]
  rfl

theorem sealedSet_erasureShards : (D.sealedSet hD).erasureShards = Position.all.map D.erasureShard := by
  rw [erasureShards_eq]
  apply List.map_congr_left
  intro q _
  exact (sealedSet_parts hD q).1

theorem sealedSet_sealed (q : Position) : (D.sealedSet hD).Sealed D.fecSetIndex D.tree.root D.signature q where
  position := sealedSet_position hD q
  fecSetIndex := (sealedSet_fields hD q).2.2.1
  signature := sealedSet_signature hD q
  merkleRoot := sealedSet_merkleRoot hD q

theorem sealedSet_consistent {Codeword : List Bytes → Prop} {version : ℕ} (hv : ∀ q, D.version q = version)
    (hc : Codeword (Position.all.map D.erasureShard)) :
    (D.sealedSet hD).Consistent Codeword D.slot version D.fecSetIndex where
  position := sealedSet_position hD
  slot q := (sealedSet_fields hD q).1
  version q := (sealedSet_fields hD q).2.1.trans (hv q)
  fecSetIndex q := (sealedSet_fields hD q).2.2.1
  inRange := hD.fecSetIndex.2
  proofSize q := (sealedSet_fields hD q).2.2.2.1.trans (sealedSet_fields hD (.data 0)).2.2.2.1.symm
  resigned q := (sealedSet_fields hD q).2.2.2.2
  signature q := (sealedSet_signature hD q).trans (sealedSet_signature hD (.data 0)).symm
  chainedMerkleRoot q := (sealedSet_parts hD q).2.1.trans (sealedSet_parts hD (.data 0)).2.1.symm
  retransmitterSignature q := (sealedSet_retransmitterSignature hD q).trans
    (sealedSet_retransmitterSignature hD (.data 0)).symm
  merkleRoot q := (sealedSet_merkleRoot hD q).trans (sealedSet_merkleRoot hD (.data 0)).symm
  codeword := by rwa [sealedSet_erasureShards]

end SetDraft
end Deshred
