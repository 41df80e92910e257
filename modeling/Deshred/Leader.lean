import Deshred.FecRecover
import Deshred.Regions

/-!
# FEC sets as a leader sends them

All 64 shreds of a set share one root and one signature, and their erasure shards
are one Reed-Solomon codeword. A missing data shard of a codeword is rebuilt to a
shred that differs from the leader's in its proof bytes only.
-/

namespace Deshred

/-- What recovery relies on: the data shards of a codeword are rebuilt from any 32
of its 64 shards. -/
def ReedSolomon.Rebuilds (rs : ReedSolomon) (Codeword : List Bytes → Prop) : Prop :=
  ∀ codeword shards, Codeword codeword → shards.length = 64 →
    (∀ (i : ℕ) (b : Bytes), shards[i]? = some (b, true) → codeword[i]? = some b) →
    (∀ s ∈ shards, ∀ c ∈ codeword, s.1.length = c.length) → 32 ≤ shards.countP Prod.snd →
    ∃ out, rs.reconstructData shards = some out ∧ (out.map Prod.fst).take 32 = codeword.take 32

namespace Shred

/-- `y` carries what the data shred `x` carries: the same fields and entry bytes. -/
structure Twin (x y : Shred) : Prop where
  fields : y.toShredFields = { x.toShredFields with bytes := y.bytes }
  data : y.data = x.data

theorem Twin.refl (x : Shred) : Twin x x := ⟨rfl, rfl⟩

variable {x y : Shred}

theorem Twin.header (h : Twin x y) : y.header = x.header := (congrArg ShredFields.header h.fields).trans rfl
theorem Twin.slot (h : Twin x y) : y.slot = x.slot := (congrArg ShredFields.slot h.fields).trans rfl
theorem Twin.index (h : Twin x y) : y.index = x.index := (congrArg ShredFields.index h.fields).trans rfl
theorem Twin.version (h : Twin x y) : y.version = x.version := (congrArg ShredFields.version h.fields).trans rfl
theorem Twin.fecSetIndex (h : Twin x y) : y.fecSetIndex = x.fecSetIndex :=
  (congrArg ShredFields.fecSetIndex h.fields).trans rfl
theorem Twin.kind (h : Twin x y) : y.kind = x.kind := (congrArg ShredFields.kind h.fields).trans rfl

theorem Twin.dataComplete (h : Twin x y) : y.dataComplete = x.dataComplete := by
  simp only [Shred.dataComplete, flags, h.header]

theorem Twin.lastInSlot (h : Twin x y) : y.lastInSlot = x.lastInSlot := by
  simp only [Shred.lastInSlot, flags, h.header]

theorem Twin.position {p : Fin 32} (h : Twin x y) (hp : x.position = .data p) : y.position = .data p := by
  have hx := x.position_data hp
  have hk : y.kind = .data := h.kind.trans hx.1
  obtain ⟨q, hq⟩ := y.exists_position_data hk
  have hy := y.position_data hq
  have hi := h.index
  have hf := h.fecSetIndex
  have hqp : q = p := Fin.ext (by omega)
  rw [hq, hqp]

/-- Bytes that agree with a data shred up to its chained root make a twin of it. -/
theorem twin_of_prefix {b : Bytes} (hk : x.kind = .data) (hlen : b.length = x.bytes.length)
    (heq : b.take (64 + x.erasureShard.length) = x.bytes.take (64 + x.erasureShard.length)) :
    ∃ y, parse b = .ok y ∧ y.bytes = b ∧ Twin x y := by
  have hl := x.layout
  have hel : x.erasureShard.length = 24 + x.capacity := by
    rw [erasureShard, slice_length]
    simp only [erasureStart, erasureEnd, hk, headersSize, dataHeadersSize, signatureSize]
    omega
  have hes := x.erasureShard_length
  have hps := x.valid.proofSize
  have hwide : 89 ≤ 64 + x.erasureShard.length := by
    have : (if x.resigned then 64 else 0) ≤ 64 := by split <;> omega
    omega
  have h89 : b.take 89 = x.bytes.take 89 := by
    have hcut : ∀ c : Bytes, c.take 89 = (c.take (64 + x.erasureShard.length)).take 89 := by
      intro c
      rw [List.take_take, Nat.min_eq_left hwide]
    rw [hcut b, hcut x.bytes, heq]
  obtain ⟨y, hy, hfields⟩ := x.parse_of_headers b h89 hlen
  have hyb : y.bytes = b := congrArg ShredFields.bytes hfields
  rw [← hyb] at hfields
  refine ⟨y, hy, hyb, hfields, ?_⟩
  obtain ⟨po, fl, size, hh⟩ := x.kind_data_iff.mp hk
  have hyh : y.header = .data po fl size := (congrArg ShredFields.header hfields).trans hh
  have hsize := x.data_header hh
  have hdata : ∀ {z : Shred} (hz : z.header = .data po fl size),
      z.data = slice z.bytes dataHeadersSize size (z.data_in_bounds hz) := by
    intro z hz
    unfold Shred.data
    split
    · rename_i po' fl' size' h'
      rw [hz] at h'
      cases h'
      rfl
    · rename_i position h'
      rw [hz] at h'
      contradiction
  rw [← hyb] at heq
  rw [hdata hh, hdata hyh]
  exact slice_congr heq (by omega) _ _

theorem rebuiltBytes_length {template : Shred} (hk : x.kind = .data)
    (hchain : x.chainedMerkleRoot = template.chainedMerkleRoot)
    (hret : x.retransmitterSignature = template.retransmitterSignature) (hps : x.proofSize = template.proofSize) :
    (FecSet.rebuiltBytes x.signature template x.erasureShard).length = x.bytes.length := by
  rw [data_parts hk, hchain, hret]
  simp only [FecSet.rebuiltBytes, List.length_append, List.length_replicate, merkleProof_length, hps,
    Merkle.proofEntrySize]
  omega

/-- What recovery writes for the shard of a data shred `x`, with a template of the
same set, is a twin of `x`. -/
theorem rebuiltBytes_twin {template : Shred} (hk : x.kind = .data)
    (hchain : x.chainedMerkleRoot = template.chainedMerkleRoot)
    (hret : x.retransmitterSignature = template.retransmitterSignature) (hps : x.proofSize = template.proofSize) :
    ∃ y, parse (FecSet.rebuiltBytes x.signature template x.erasureShard) = .ok y ∧ Twin x y := by
  have hparts := data_parts hk
  have hlen := rebuiltBytes_length hk hchain hret hps
  rw [hchain, hret] at hparts
  have hprefix : (FecSet.rebuiltBytes x.signature template x.erasureShard).take (64 + x.erasureShard.length) =
      x.bytes.take (64 + x.erasureShard.length) := by
    have hs := x.signature.property
    have hcut : 64 + x.erasureShard.length = (x.signature.val ++ x.erasureShard).length := by
      rw [List.length_append, hs]
    rw [hparts, hcut, FecSet.rebuiltBytes]
    simp only [List.append_assoc]
    rw [← List.append_assoc, List.take_left, ← List.append_assoc, List.take_left]
  obtain ⟨y, hy, _, htwin⟩ := twin_of_prefix hk hlen hprefix
  exact ⟨y, hy, htwin⟩

end Shred

/-! ### The sets of a block -/

structure LeaderSet where
  data : Fin 32 → Shred
  code : Fin 32 → Shred

namespace LeaderSet

def shred (S : LeaderSet) : Position → Shred
  | .data p => S.data p
  | .code p => S.code p

/- Data shards first, then code, as the reconstruction takes them. -/
def erasureShards (S : LeaderSet) : List Bytes :=
  (List.finRange 32).map (fun p => (S.data p).erasureShard) ++
    (List.finRange 32).map fun p => (S.code p).erasureShard

variable [Hasher]

/- The shred at `q` is in its place, under this root and signature: what
`FecSet::insert` looks at. -/
structure Sealed (S : LeaderSet) (f : ℕ) (root : Hash32) (signature : Signature) (q : Position) : Prop where
  position : (S.shred q).position = q
  fecSetIndex : (S.shred q).fecSetIndex = f
  signature : (S.shred q).signature = signature
  merkleRoot : (S.shred q).merkleRoot = some root

/-- A FEC set of slot `slot` as a leader sends it. -/
structure Consistent (S : LeaderSet) (Codeword : List Bytes → Prop) (slot version f : ℕ) : Prop where
  position : ∀ q, (S.shred q).position = q
  slot : ∀ q, (S.shred q).slot = slot
  version : ∀ q, (S.shred q).version = version
  fecSetIndex : ∀ q, (S.shred q).fecSetIndex = f
  inRange : f ≤ 32736
  proofSize : ∀ q, (S.shred q).proofSize = (S.data 0).proofSize
  resigned : ∀ q, (S.shred q).resigned = (S.data 0).resigned
  signature : ∀ q, (S.shred q).signature = (S.data 0).signature
  chainedMerkleRoot : ∀ q, (S.shred q).chainedMerkleRoot = (S.data 0).chainedMerkleRoot
  retransmitterSignature : ∀ q, (S.shred q).retransmitterSignature = (S.data 0).retransmitterSignature
  merkleRoot : ∀ q, (S.shred q).merkleRoot = (S.data 0).merkleRoot
  codeword : Codeword S.erasureShards

variable {S : LeaderSet} {Codeword : List Bytes → Prop} {slot version f : ℕ}

theorem Consistent.mono {Codeword' : List Bytes → Prop} (h : S.Consistent Codeword slot version f)
    (hsub : ∀ c, Codeword c → Codeword' c) : S.Consistent Codeword' slot version f :=
  { h with codeword := hsub _ h.codeword }

theorem Consistent.sealed (h : S.Consistent Codeword slot version f) :
    ∃ root, ∀ q, S.Sealed f root (S.data 0).signature q := by
  have hzero : (S.data 0).erasureShardIndex = 0 := ((S.data 0).position_data (h.position (.data 0))).2.2.2
  obtain ⟨root, hroot⟩ := Option.isSome_iff_exists.mp ((S.data 0).merkleRoot_isSome hzero)
  exact ⟨root, fun q => ⟨h.position q, h.fecSetIndex q, h.signature q, (h.merkleRoot q).trans hroot⟩⟩

omit [Hasher] in
theorem mem_erasureShards {b : Bytes} : b ∈ S.erasureShards ↔ ∃ q, (S.shred q).erasureShard = b := by
  simp only [erasureShards, List.mem_append, List.mem_map, List.mem_finRange, true_and]
  constructor
  · intro h
    rcases h with ⟨p, hp⟩ | ⟨p, hp⟩
    · exact ⟨.data p, hp⟩
    · exact ⟨.code p, hp⟩
  · rintro ⟨p | p, hp⟩
    · exact .inl ⟨p, hp⟩
    · exact .inr ⟨p, hp⟩

omit [Hasher] in
theorem erasureShards_data (S : LeaderSet) (p : Fin 32) :
    S.erasureShards[(p : ℕ)]? = some (S.data p).erasureShard := by
  have hlen : (p : ℕ) < ((List.finRange 32).map fun p => (S.data p).erasureShard).length := by simp
  rw [erasureShards, List.getElem?_append_left hlen, List.getElem?_map]
  simp

omit [Hasher] in
theorem erasureShards_code (S : LeaderSet) (p : Fin 32) :
    S.erasureShards[32 + (p : ℕ)]? = some (S.code p).erasureShard := by
  have hlen : ((List.finRange 32).map fun p => (S.data p).erasureShard).length ≤ 32 + (p : ℕ) := by simp
  rw [erasureShards, List.getElem?_append_right hlen, List.getElem?_map]
  simp

theorem Consistent.shard_length (h : S.Consistent Codeword slot version f) (q q' : Position) :
    (S.shred q).erasureShard.length = (S.shred q').erasureShard.length := by
  have h1 := (S.shred q).erasureShard_length
  have h2 := (S.shred q').erasureShard_length
  rw [h.proofSize, h.resigned] at h1 h2
  omega

/-- The leader's own shard rebuilds to a twin of the leader's shred, whichever shred
of the set serves as the template. -/
theorem Consistent.rebuild (h : S.Consistent Codeword slot version f) (q : Position) (p : Fin 32) :
    ∃ y, FecSet.rebuild (S.data 0).signature (S.shred q) p (S.data p).erasureShard = .ok y ∧
      Shred.Twin (S.data p) y := by
  have hpos := (S.data p).position_data (h.position (.data p))
  have hsig : (S.data p).signature = (S.data 0).signature := h.signature (.data p)
  obtain ⟨y, hy, htwin⟩ := Shred.rebuiltBytes_twin hpos.1
    ((h.chainedMerkleRoot (.data p)).trans (h.chainedMerkleRoot q).symm)
    ((h.retransmitterSignature (.data p)).trans (h.retransmitterSignature q).symm)
    ((h.proofSize (.data p)).trans (h.proofSize q).symm)
  rw [hsig] at hy
  refine ⟨y, FecSet.rebuild_of_parse ⟨htwin.position (h.position (.data p)), ?_, ?_, ?_, hy⟩, htwin⟩
  · rw [htwin.slot, h.slot q]
    exact h.slot (.data p)
  · rw [htwin.fecSetIndex, h.fecSetIndex q]
    exact h.fecSetIndex (.data p)
  · rw [htwin.version, h.version q]
    exact h.version (.data p)

end LeaderSet
end Deshred
