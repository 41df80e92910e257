import Deshred.Wire

/-!
# The regions of a datagram (shred.rs)

`capacity` and the accessors of `Shred` derive their offsets separately. `Raw` has the
accessors as written, on any record, with `none` where the source would panic; on a
parsed shred none of them is, and the regions follow each other without a gap.
-/

namespace Deshred

/- `&b[lo..hi]`, with its bounds check. -/
def sliceRange (b : Bytes) (lo hi : ℕ) : Option Bytes :=
  if h : lo ≤ hi ∧ hi ≤ b.length then some (slice b lo hi h) else none

/- `a - b` on unsigned numbers, with its underflow check. -/
def checkedSub (a b : ℕ) : Option ℕ := if b ≤ a then some (a - b) else none

theorem sliceRange_of_le {b : Bytes} {lo hi : ℕ} (h : lo ≤ hi ∧ hi ≤ b.length) :
    sliceRange b lo hi = some (slice b lo hi h) := dif_pos h

theorem checkedSub_of_le {a b : ℕ} (h : b ≤ a) : checkedSub a b = some (a - b) := if_pos h

namespace Raw

/-! ### The accessors as written -/

def signature (f : ShredFields) : Option Bytes := sliceRange f.bytes 0 signatureSize

def parentSlot (f : ShredFields) : Option (Option ℕ) :=
  match f.header with
  | .data parentOffset _ _ => (checkedSub f.slot parentOffset).map some
  | .code _ => some none

def data (f : ShredFields) : Option Bytes :=
  match f.header with
  | .data _ _ size => sliceRange f.bytes dataHeadersSize size
  | .code _ => some []

def erasureShard (f : ShredFields) : Option Bytes :=
  match f.kind with
  | .data => sliceRange f.bytes signatureSize (dataHeadersSize + f.capacity)
  | .code => sliceRange f.bytes codeHeadersSize (codeHeadersSize + f.capacity)

def erasureShardIndex (f : ShredFields) : Option ℕ :=
  match f.header with
  | .data .. => checkedSub f.index f.fecSetIndex
  | .code position => some (dataShredsPerFecSet + position)

def proofOffset (f : ShredFields) : ℕ := headersSize f.kind + f.capacity + merkleRootSize

def chainedMerkleRoot (f : ShredFields) : Option Bytes := do
  let start ← checkedSub (proofOffset f) merkleRootSize
  sliceRange f.bytes start (proofOffset f)

def merkleProof (f : ShredFields) : Option Bytes :=
  sliceRange f.bytes (proofOffset f) (proofOffset f + f.proofSize * Merkle.proofEntrySize)

def retransmitterSignature (f : ShredFields) : Option (Option Bytes) :=
  if f.resigned then do
    let start ← checkedSub f.bytes.length signatureSize
    let sig ← sliceRange f.bytes start f.bytes.length
    return some sig
  else some none

section
variable [Hasher]

def merkleLeaf (f : ShredFields) : Option Hash32 := do
  let bytes ← sliceRange f.bytes signatureSize (proofOffset f)
  return Merkle.leaf bytes

def join (left right : Bytes) : Option Hash32 := do
  let left ← sliceRange left 0 Merkle.proofEntrySize
  let right ← sliceRange right 0 Merkle.proofEntrySize
  return hashv [Merkle.nodePrefix, left, right]

def rootFromProof (index : ℕ) (leaf : Hash32) (proof : Bytes) : Option (Option Hash32) := do
  let (index, root) ← (Merkle.chunksExact Merkle.proofEntrySize proof).foldlM (fun (index, node) sibling => do
    let parent ← if index % 2 = 0 then join node.val sibling else join sibling node.val
    return (index >>> 1, parent)) (index, leaf)
  return if index = 0 then some root else none

def merkleRoot (f : ShredFields) : Option (Option Hash32) := do
  let index ← erasureShardIndex f
  let leaf ← merkleLeaf f
  let proof ← merkleProof f
  rootFromProof index leaf proof

theorem join_eq {left right : Bytes} (hl : Merkle.proofEntrySize ≤ left.length)
    (hr : Merkle.proofEntrySize ≤ right.length) :
    join left right = some (Merkle.join left right) := by
  rw [join, sliceRange_of_le ⟨Nat.zero_le _, hl⟩, sliceRange_of_le ⟨Nat.zero_le _, hr⟩]
  rfl

/-- A digest and a chunk of the proof hold the 20 bytes a node hashes. -/
theorem rootFromProof_eq (index : ℕ) (leaf : Hash32) (proof : Bytes) :
    rootFromProof index leaf proof = some (Merkle.rootFromProof index leaf proof) := by
  have hlen := Merkle.chunksExact_length Merkle.proofEntrySize proof
  unfold rootFromProof Merkle.rootFromProof
  generalize Merkle.chunksExact Merkle.proofEntrySize proof = entries at hlen
  induction entries generalizing index leaf with
  | nil => rfl
  | cons sibling entries ih =>
    have hs : Merkle.proofEntrySize ≤ sibling.length := (hlen sibling (List.mem_cons_self ..)).ge
    have hn : Merkle.proofEntrySize ≤ leaf.val.length := by
      rw [leaf.property]
      decide
    have hrest := fun index leaf => ih index leaf fun c hc => hlen c (List.mem_cons_of_mem _ hc)
    rw [List.foldlM_cons, List.foldl_cons]
    by_cases heven : index % 2 = 0
    · simp only [heven, ↓reduceIte, join_eq hn hs]
      exact hrest _ _
    · simp only [heven, ↓reduceIte, join_eq hs hn]
      exact hrest _ _

end

end Raw

namespace Shred
variable (s : Shred)

/-! ### No accessor panics -/

/- Every accessor returns, with the value that `Shred` has for it. -/
structure Completes [Hasher] : Prop where
  signature : Raw.signature s.toShredFields = some s.signature.val
  parentSlot : Raw.parentSlot s.toShredFields = some s.parentSlot
  data : Raw.data s.toShredFields = some s.data
  erasureShard : Raw.erasureShard s.toShredFields = some s.erasureShard
  erasureShardIndex : Raw.erasureShardIndex s.toShredFields = some s.erasureShardIndex
  chainedMerkleRoot : Raw.chainedMerkleRoot s.toShredFields = some s.chainedMerkleRoot
  merkleProof : Raw.merkleProof s.toShredFields = some s.merkleProof
  retransmitterSignature :
    Raw.retransmitterSignature s.toShredFields = some (s.retransmitterSignature.map Subtype.val)
  merkleLeaf : Raw.merkleLeaf s.toShredFields = some s.merkleLeaf
  merkleRoot : Raw.merkleRoot s.toShredFields = some s.merkleRoot

theorem data_of_header {s : Shred} {parentOffset size : ℕ} {flags : UInt8}
    (h : s.header = .data parentOffset flags size) :
    s.data = slice s.bytes dataHeadersSize size (s.data_in_bounds h) := by
  unfold Shred.data
  split
  · rename_i h'
    rw [h] at h'
    cases h'
    rfl
  · rename_i h'
    rw [h] at h'
    contradiction

theorem data_of_code {s : Shred} {position : ℕ} (h : s.header = .code position) : s.data = [] := by
  unfold Shred.data
  split
  · rename_i h'
    rw [h] at h'
    contradiction
  · rfl

theorem completes [Hasher] : s.Completes := by
  have hsig : 0 ≤ signatureSize ∧ signatureSize ≤ s.bytes.length :=
    ⟨Nat.zero_le _, s.leaf_in_bounds.1.trans s.leaf_in_bounds.2⟩
  have hindex : Raw.erasureShardIndex s.toShredFields = some s.erasureShardIndex := by
    unfold Raw.erasureShardIndex erasureShardIndex
    cases hh : s.header with
    | data po fl size => exact checkedSub_of_le (s.data_header hh).2.1
    | code position => rfl
  have hleaf : Raw.merkleLeaf s.toShredFields = some s.merkleLeaf := by
    have hslice := sliceRange_of_le s.leaf_in_bounds
    simp only [Raw.merkleLeaf]
    exact congrArg (fun r : Option Bytes => r >>= fun b => some (Merkle.leaf b)) hslice
  have hproof : Raw.merkleProof s.toShredFields = some s.merkleProof := sliceRange_of_le s.proof_in_bounds
  constructor
  case signature => exact sliceRange_of_le hsig
  case parentSlot =>
    unfold Raw.parentSlot parentSlot
    cases hh : s.header with
    | data po fl size =>
      dsimp only
      rw [checkedSub_of_le (s.data_header hh).2.2.2.1]
      rfl
    | code position => rfl
  case data =>
    unfold Raw.data
    cases hh : s.header with
    | data po fl size =>
      rw [data_of_header hh]
      exact sliceRange_of_le (s.data_in_bounds hh)
    | code position => rw [data_of_code hh]
  case erasureShard =>
    have hslice := sliceRange_of_le s.erasure_in_bounds
    rw [erasureShard, ← hslice]
    unfold Raw.erasureShard erasureStart erasureEnd headersSize
    cases s.kind <;> rfl
  case erasureShardIndex => exact hindex
  case chainedMerkleRoot =>
    have hle : merkleRootSize ≤ s.proofOffset := Nat.le_add_left _ _
    have hsub := checkedSub_of_le hle
    have hslice := sliceRange_of_le (b := s.bytes) ⟨Nat.sub_le s.proofOffset merkleRootSize, s.leaf_in_bounds.2⟩
    have hoff : Raw.proofOffset s.toShredFields = s.proofOffset := rfl
    rw [Raw.chainedMerkleRoot, hoff, hsub]
    exact hslice
  case merkleProof => exact hproof
  case retransmitterSignature =>
    unfold Raw.retransmitterSignature retransmitterSignature
    cases hr : s.resigned with
    | false => rfl
    | true =>
      have hsub := checkedSub_of_le hsig.2
      have hslice := sliceRange_of_le (b := s.bytes) ⟨Nat.sub_le s.bytes.length signatureSize, le_rfl⟩
      simp only [↓reduceIte, hsub]
      exact congrArg (fun r : Option Bytes => r >>= fun b => some (some b)) hslice
  case merkleLeaf => exact hleaf
  case merkleRoot =>
    rw [Raw.merkleRoot, hindex, hleaf, hproof]
    exact Raw.rootFromProof_eq _ _ _

/-! ### The regions tile the datagram -/

theorem leaf_parts : ∃ headers : Bytes, s.leafBytes = headers ++ s.erasureShard ++ s.chainedMerkleRoot ∧
    (s.kind = .data → headers = []) := by
  have hstart : signatureSize ≤ s.erasureStart ∧ (s.kind = .data → s.erasureStart = signatureSize) := by
    unfold erasureStart
    cases s.kind with
    | data => exact ⟨le_rfl, fun _ => rfl⟩
    | code => exact ⟨by decide, fun h => by contradiction⟩
  have hb := s.erasure_in_bounds
  have hoff : s.proofOffset - merkleRootSize = s.erasureEnd := Nat.add_sub_cancel _ _
  have hin := s.leaf_in_bounds
  have hle : s.erasureEnd ≤ s.proofOffset := Nat.le_add_right _ _
  refine ⟨slice s.bytes signatureSize s.erasureStart ⟨hstart.1, hb.1.trans hb.2⟩, ?_, fun hk => ?_⟩
  · have hchain : s.chainedMerkleRoot = slice s.bytes s.erasureEnd s.proofOffset ⟨hle, hin.2⟩ := by
      simp only [chainedMerkleRoot, hoff]
    rw [hchain, erasureShard, slice_append _ _ ⟨hstart.1.trans hb.1, hb.2⟩, slice_append _ _ hin]
    rfl
  · apply List.eq_nil_of_length_eq_zero
    rw [slice_length, hstart.2 hk, Nat.sub_self]

/-- The retransmitter signature, if there is one, is what follows the proof. -/
theorem tail_eq : s.retransmitterSignature.elim [] Subtype.val =
    slice s.bytes s.proofEnd s.bytes.length ⟨s.proof_in_bounds.2, le_rfl⟩ := by
  have hl := s.layout
  have hend : s.proofEnd = headersSize s.kind + s.capacity + 32 + s.proofSize * 20 := rfl
  unfold retransmitterSignature
  cases hr : s.resigned with
  | true =>
    simp only [hr, ↓reduceIte] at hl
    have heq : s.bytes.length - signatureSize = s.proofEnd := by
      simp only [signatureSize]
      omega
    simp only [↓reduceIte, Option.elim, heq]
  | false =>
    simp only [hr, Bool.false_eq_true, ↓reduceIte] at hl
    simp only [Bool.false_eq_true, ↓reduceIte, Option.elim]
    refine (List.eq_nil_of_length_eq_zero ?_).symm
    rw [slice_length]
    omega

theorem proof_parts : s.bytes.take s.proofEnd = s.signature.val ++ s.leafBytes ++ s.merkleProof := by
  have hsig : 0 ≤ signatureSize ∧ signatureSize ≤ s.bytes.length :=
    ⟨Nat.zero_le _, s.leaf_in_bounds.1.trans s.leaf_in_bounds.2⟩
  have h1 : s.signature.val ++ s.leafBytes = slice s.bytes 0 s.proofOffset ⟨Nat.zero_le _, s.leaf_in_bounds.2⟩ :=
    slice_append hsig _ _
  rw [h1, merkleProof, slice_append _ _ ⟨Nat.zero_le _, s.proof_in_bounds.2⟩]
  rfl

/-- A datagram is its leader signature, the hashed part, the proof and the
retransmitter signature of a resigned variant. -/
theorem bytes_parts : s.bytes = s.signature.val ++ s.leafBytes ++ s.merkleProof ++
    s.retransmitterSignature.elim [] Subtype.val := by
  have htake : s.bytes.take s.proofEnd = slice s.bytes 0 s.proofEnd ⟨Nat.zero_le _, s.proof_in_bounds.2⟩ := rfl
  rw [← proof_parts, s.tail_eq, htake, slice_append _ _ ⟨Nat.zero_le _, le_rfl⟩, slice_full]

theorem data_parts {x : Shred} (hk : x.kind = .data) :
    x.bytes = x.signature.val ++ x.erasureShard ++ x.chainedMerkleRoot ++ x.merkleProof ++
      x.retransmitterSignature.elim [] Subtype.val := by
  obtain ⟨headers, hleaf, hnil⟩ := x.leaf_parts
  have hbytes := x.bytes_parts
  rw [hleaf, hnil hk, List.nil_append, ← List.append_assoc] at hbytes
  exact hbytes

theorem data_prefix {x : Shred} (hk : x.kind = .data) :
    x.data <+: x.erasureShard.drop (dataHeadersSize - signatureSize) := by
  obtain ⟨po, fl, size, hh⟩ := x.kind_data_iff.mp hk
  have hsize := x.data_header hh
  have hdata : x.data = (x.bytes.drop 88).take (size - 88) := data_of_header hh
  have hshard : x.erasureShard.drop (dataHeadersSize - signatureSize) = (x.bytes.drop 88).take x.capacity := by
    simp only [erasureShard, slice, erasureStart, erasureEnd, hk, headersSize, dataHeadersSize, signatureSize]
    rw [List.drop_take, List.drop_drop]
    congr 1
    omega
  rw [hdata, hshard]
  exact List.take_prefix_take_left (by omega)

/- The regions of a shred: four in a row make up its bytes, and the erasure shard and
the chained root end the hashed one. -/
structure Tiles : Prop where
  bytes : s.bytes = s.signature.val ++ s.leafBytes ++ s.merkleProof ++
    s.retransmitterSignature.elim [] Subtype.val
  resigned : s.retransmitterSignature.isSome = s.resigned
  leaf : s.erasureShard ++ s.chainedMerkleRoot <:+ s.leafBytes
  chainedMerkleRoot : s.chainedMerkleRoot.length = merkleRootSize
  data : s.kind = .data → s.data <+: s.erasureShard.drop (dataHeadersSize - signatureSize)
  code : s.kind = .code → s.data = []

theorem tiles : s.Tiles where
  bytes := s.bytes_parts
  resigned := s.retransmitterSignature_isSome
  leaf := by
    obtain ⟨headers, hleaf, _⟩ := s.leaf_parts
    rw [hleaf, List.append_assoc]
    exact List.suffix_append _ _
  chainedMerkleRoot := s.chainedMerkleRoot_length
  data := data_prefix
  code hk := by
    cases hh : s.header with
    | data po fl size =>
      rw [(s.data_header hh).1] at hk
      contradiction
    | code position => exact data_of_code hh

/-- Whatever follows the wire bytes is dropped, a repair nonce for one. -/
theorem parse_append (rest : Bytes) : parse (s.bytes ++ rest) = .ok s := by
  have hlen := s.bytes_length
  have h89 : 89 ≤ s.bytes.length := by
    have hge := s.bytes_length_ge
    omega
  have heq : (s.bytes ++ rest).take 89 = s.bytes.take 89 := List.take_append_of_le_length h89
  have hlong : wireSize s.kind ≤ (s.bytes ++ rest).length := by
    rw [List.length_append]
    omega
  have hfields := parseFields_congr s.parsed heq hlong
  rw [← hlen, List.take_left] at hfields
  exact parse_eq_ok_iff.mpr hfields

theorem chunks_of_no_proof {x : Shred} (hp : x.proofSize = 0) :
    Merkle.chunksExact Merkle.proofEntrySize x.merkleProof = [] := by
  have hnil : x.merkleProof = [] := by
    apply List.eq_nil_of_length_eq_zero
    rw [merkleProof_length, hp, Nat.zero_mul]
  rw [hnil]
  exact Merkle.chunksExact_flatten Merkle.proofEntrySize (by decide) [] (by simp)

/-- Without a proof only shard 0 has a root, its leaf. -/
theorem merkleRoot_of_no_proof [Hasher] {x : Shred} (hp : x.proofSize = 0) (hi : x.erasureShardIndex ≠ 0) :
    x.merkleRoot = none := by
  rw [merkleRoot, Merkle.rootFromProof_eq, chunks_of_no_proof hp, if_neg (by simpa using hi)]

/- A code shred of the largest variant: resigned, with 15 proof entries. -/
def resignedPacket : CodePacket := { CodePacket.blank 9 0 with variant := 0x7F }

theorem resignedPacket_valid : resignedPacket.Valid true 743 :=
  have h : (CodePacket.blank 9 0).Valid _ _ := CodePacket.blank_valid (by decide) (by decide) rfl
  { h with
    kind := by
      show variantKind 0x7F = _
      decide
    room := by
      show Deshred.capacity .code ((0x7F : UInt8) &&& 0x0F).toNat true = _
      decide
    body := h.body
    aligned := h.aligned
    position := h.position }

/-- The accessors of a parsed shred return, its regions tile a prefix of the datagram, and
its own bytes parse to it again. -/
theorem parse_tiles [Hasher] {b : Bytes} {s : Shred} (h : parse b = .ok s) :
    s.Completes ∧ s.Tiles ∧ s.bytes <+: b ∧
      s.bytes.length = (match s.kind with | .data => 1203 | .code => 1228) ∧
      ∀ rest, parse (s.bytes ++ rest) = .ok s := by
  refine ⟨s.completes, s.tiles, ?_, ?_, s.parse_append⟩
  · rw [(bytes_of_parse h).1]
    exact List.take_prefix _ _
  · rw [s.bytes_length]
    cases s.kind <;> rfl

/-- The largest variant, and the 4 bytes of a nonce after it. -/
theorem parse_tiles_resigned :
    ∃ s, parse (resignedPacket.packet ++ [1, 2, 3, 4]) = .ok s ∧ s.kind = .code ∧ s.resigned = true ∧
      @Completes s sha256Hasher ∧ s.Tiles := by
  have hfirst := (resignedPacket.shred resignedPacket_valid).parse_append [1, 2, 3, 4]
  have hall := @parse_tiles sha256Hasher _ _ hfirst
  exact ⟨_, hfirst, rfl, rfl, hall.1, hall.2.1⟩

end Shred

namespace DataPacket

theorem shred_data (p : DataPacket) {resigned : Bool} {c : ℕ} (h : p.Valid resigned c) :
    (p.shred h).data = p.body.take (p.size - 88) := by
  have hdrop : p.packet.drop 88 = p.body := by
    have hfront : p.packet = p.toCommonHeader.bytes ++ (leBytes 2 p.parentOffset ++ [p.flags] ++ leBytes 2 p.size) ++ p.body := by
      simp only [packet, tail, List.append_assoc]
    rw [hfront]
    refine List.drop_left' ?_
    simp only [List.length_append, CommonHeader.bytes_length, leBytes_length, List.length_singleton]
  rw [Shred.data_of_header (s := p.shred h) rfl, ← hdrop]
  rfl

end DataPacket

end Deshred
