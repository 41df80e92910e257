import Deshred.LeaderFec
import Deshred.Sealing

/-!
# What a root and a signature fix about a shred

A shred that leads to the root of a leader's tree, under the leader's signature, has
the leader's bytes up to the end of its proof. What a set holds or rebuilds on top of
such shreds has the leader's bytes up to the end of the erasure shard.
-/

namespace Deshred

namespace Shred

/-- The first `n` bytes are the same. -/
def Agrees (x y : Shred) (n : ℕ) : Prop := y.bytes.take n = x.bytes.take n

variable {x y : Shred} {n m : ℕ}

theorem Agrees.mono (h : Agrees x y n) (hm : m ≤ n) : Agrees x y m := by
  have hcut : ∀ b : Bytes, b.take m = (b.take n).take m := by
    intro b
    rw [List.take_take, Nat.min_eq_left hm]
  rw [Agrees, hcut, h, ← hcut]

theorem Agrees.kind (h : Agrees x y n) (hn : 89 ≤ n) : y.kind = x.kind := by
  have hdata : ∀ a b : Shred, a.bytes.take 89 = b.bytes.take 89 → a.kind = .data → b.kind = .data := by
    intro a b heq ha
    have hlen : wireSize a.kind ≤ b.bytes.length := by
      rw [ha]
      exact b.bytes_length_ge
    have hb := parseFields_congr a.parsed heq.symm hlen
    rw [b.parsed, Except.ok.injEq] at hb
    rw [congrArg ShredFields.kind hb]
    exact ha
  have h89 := h.mono hn
  cases hx : x.kind with
  | data => exact hdata x y h89.symm hx
  | code =>
    cases hy : y.kind with
    | data =>
      rw [hdata y x h89 hy] at hx
      contradiction
    | code => rfl

theorem Agrees.fields (h : Agrees x y n) (hn : 89 ≤ n) :
    y.toShredFields = { x.toShredFields with bytes := y.bytes } := by
  have hlen : y.bytes.length = x.bytes.length := by rw [y.bytes_length, x.bytes_length, h.kind hn]
  obtain ⟨z, hz, hfields⟩ := x.parse_of_headers y.bytes (h.mono hn) hlen
  rw [y.parse_bytes, Except.ok.injEq] at hz
  rw [hz, hfields]

theorem erasureEnd_ge (x : Shred) : 89 ≤ x.erasureEnd := by
  have hl := x.valid.layout
  have hp := x.valid.proofSize
  have hr : (if x.resigned then 64 else 0) ≤ 64 := by split <;> omega
  unfold erasureEnd
  cases hk : x.kind <;>
    simp only [hk, headersSize, dataHeadersSize, codeHeadersSize, wireSize, dataShredSize, codeShredSize] at hl ⊢ <;>
    omega

theorem erasureEnd_le (x : Shred) : x.erasureEnd + 32 = x.proofOffset ∧ x.proofOffset ≤ x.proofEnd :=
  ⟨rfl, x.proof_in_bounds.1⟩

theorem Agrees.twin (h : Agrees x y x.erasureEnd) : Twin x y := by
  have hfields := h.fields x.erasureEnd_ge
  refine ⟨hfields, ?_⟩
  have hheader : y.header = x.header := (congrArg ShredFields.header hfields).trans rfl
  cases hx : x.header with
  | data po fl size =>
    have hd := x.data_header hx
    have hend : size ≤ x.erasureEnd := by
      simp only [erasureEnd, hd.1, headersSize, dataHeadersSize]
      exact hd.2.2.2.2.2
    rw [data_of_header hx, data_of_header (hheader.trans hx)]
    exact slice_congr h hend _ _
  | code position =>
    rw [data_of_code hx, data_of_code (hheader.trans hx)]

theorem Twin.layout (h : Twin x y) : y.erasureStart = x.erasureStart ∧ y.erasureEnd = x.erasureEnd ∧
    y.proofOffset = x.proofOffset ∧ y.proofEnd = x.proofEnd := by
  have hk := h.kind
  have hc : y.capacity = x.capacity := (congrArg ShredFields.capacity h.fields).trans rfl
  have hp : y.proofSize = x.proofSize := (congrArg ShredFields.proofSize h.fields).trans rfl
  refine ⟨?_, ?_, ?_, ?_⟩
  · rw [erasureStart, erasureStart, hk]
  · rw [erasureEnd, erasureEnd, hk, hc]
  · rw [proofOffset, proofOffset, hk, hc]
  · rw [proofEnd, proofEnd, proofOffset, proofOffset, hk, hc, hp]

theorem Agrees.erasureShard (h : Agrees x y x.erasureEnd) : y.erasureShard = x.erasureShard := by
  obtain ⟨hs, he, _, _⟩ := h.twin.layout
  simp only [Shred.erasureShard, hs, he]
  exact slice_congr h le_rfl _ _

/-- A shred with the leader's bytes up to the end of the proof has its root and
signature. -/
theorem Agrees.sealed [Hasher] (h : Agrees x y x.proofEnd) : y.merkleRoot = x.merkleRoot ∧ y.signature = x.signature := by
  have hle := x.erasureEnd_le
  have ht := (h.mono (m := x.erasureEnd) (by omega)).twin
  obtain ⟨_, _, ho, he⟩ := ht.layout
  have hindex : y.erasureShardIndex = x.erasureShardIndex := by
    simp only [erasureShardIndex, ht.header, ht.index, ht.fecSetIndex]
  have hsig := x.leaf_in_bounds.1
  refine ⟨?_, ?_⟩
  · have hleaf : y.leafBytes = x.leafBytes := by
      simp only [leafBytes, ho]
      exact slice_congr h hle.2 _ _
    have hproof : y.merkleProof = x.merkleProof := by
      simp only [merkleProof, ho, he]
      exact slice_congr h le_rfl _ _
    rw [merkleRoot, merkleRoot, hindex, hproof, merkleLeaf, merkleLeaf, hleaf]
  · have h64 : ∀ z : Shred, 0 ≤ signatureSize ∧ signatureSize ≤ z.bytes.length :=
      fun z => ⟨Nat.zero_le _, z.leaf_in_bounds.1.trans z.leaf_in_bounds.2⟩
    apply Subtype.ext
    exact slice_congr h (by omega) (h64 y) (h64 x)

/-- Signature, hashed part and proof are all there is before the end of the proof. -/
theorem agrees_of_parts (hs : y.signature = x.signature) (hl : y.leafBytes = x.leafBytes)
    (hp : y.merkleProof = x.merkleProof) : Agrees x y x.proofEnd := by
  have hend : y.proofEnd = x.proofEnd := by
    have hlen := congrArg List.length hl
    have hplen := congrArg List.length hp
    simp only [leafBytes, merkleProof, slice_length] at hlen hplen
    have hx := x.leaf_in_bounds
    have hy := y.leaf_in_bounds
    have hxp := x.proof_in_bounds
    have hyp := y.proof_in_bounds
    omega
  rw [Agrees, ← hend, y.proof_parts, hs, hl, hp, ← x.proof_parts, hend]

/-- What recovery writes for the erasure shard of `x` agrees with `x` that far. -/
theorem rebuiltBytes_agrees {template : Shred} (hk : x.kind = .data)
    (h : parse (FecSet.rebuiltBytes x.signature template x.erasureShard) = .ok y) : Agrees x y x.erasureEnd := by
  have hb := (bytes_of_parse h).1
  have hsl := x.signature.property
  have hel : x.erasureEnd = (x.signature.val ++ x.erasureShard).length := by
    have hin := x.erasure_in_bounds
    rw [List.length_append, hsl, Shred.erasureShard, slice_length]
    simp only [erasureStart, hk, signatureSize] at hin ⊢
    omega
  have hx : x.bytes.take x.erasureEnd = x.signature.val ++ x.erasureShard := by
    have hparts := data_parts hk
    simp only [List.append_assoc] at hparts
    rw [hel, hparts, ← List.append_assoc, List.take_left]
  have hlow : x.erasureEnd ≤ wireSize y.kind := by
    have hle := x.erasure_in_bounds.2
    have hlen := x.bytes_length
    have hge := wireSize_ge y.kind
    rw [hk] at hlen
    simp only [wireSize, dataShredSize] at hlen
    omega
  rw [Agrees, hb, List.take_take, Nat.min_eq_left hlow, hx, hel, FecSet.rebuiltBytes]
  simp only [List.append_assoc]
  rw [← List.append_assoc, List.take_left]

end Shred

namespace LeaderSet
variable [Hasher]

def leaves (S : LeaderSet) : List Hash32 := Position.all.map fun q => (S.shred q).merkleLeaf

theorem leaves_length (S : LeaderSet) : S.leaves.length = 64 := by
  rw [leaves, List.length_map, Position.all_length]

theorem leaves_ne_nil (S : LeaderSet) : S.leaves ≠ [] := by
  intro h
  have hl := S.leaves_length
  rw [h] at hl
  contradiction

def tree (S : LeaderSet) : Merkle.Tree := Merkle.Tree.new S.leaves S.leaves_ne_nil

def treeProof (S : LeaderSet) (q : Position) : Bytes :=
  (S.tree.proof q.erasureIndex (by
    have hq := q.erasureIndex_lt
    have hn : S.tree.numLeaves = 64 := S.leaves_length
    omega)).flatten

/-- A FEC set of slot `slot` whose shreds carry the proofs of one tree over their
leaves, one signature, and the shards of one codeword. -/
structure Committed (S : LeaderSet) (Codeword : List Bytes → Prop) (slot f : ℕ) : Prop where
  position : ∀ q, (S.shred q).position = q
  slot : ∀ q, (S.shred q).slot = slot
  fecSetIndex : ∀ q, (S.shred q).fecSetIndex = f
  proofSize : ∀ q, (S.shred q).proofSize = 6
  signature : ∀ q, (S.shred q).signature = (S.data 0).signature
  merkleProof : ∀ q, (S.shred q).merkleProof = S.treeProof q
  shardLength : ∀ q r, (S.shred q).erasureShard.length = (S.shred r).erasureShard.length
  codeword : Codeword S.erasureShards

variable {S : LeaderSet} {Codeword : List Bytes → Prop} {slot f : ℕ} {x y : Shred} {q : Position}

theorem leaves_getElem (S : LeaderSet) (q : Position) : S.leaves[q.erasureIndex]? = some (S.shred q).merkleLeaf := by
  rw [leaves, List.getElem?_map, q.all_getElem]
  rfl

theorem Committed.merkleRoot (h : S.Committed Codeword slot f) (q : Position) :
    (S.shred q).merkleRoot = some S.tree.root := by
  have hi : q.erasureIndex < S.leaves.length := by
    rw [S.leaves_length]
    exact q.erasureIndex_lt
  have hleaf : S.leaves[q.erasureIndex] = (S.shred q).merkleLeaf :=
    (List.getElem?_eq_some_iff.mp (S.leaves_getElem q)).2
  have hroot := Merkle.rootFromProof_proof S.leaves_ne_nil q.erasureIndex hi
  rw [hleaf] at hroot
  rw [Shred.merkleRoot, h.merkleProof, Shred.erasureShardIndex_eq, h.position]
  exact hroot

theorem Committed.sealed (h : S.Committed Codeword slot f) (q : Position) :
    S.Sealed f S.tree.root (S.data 0).signature q :=
  ⟨h.position q, h.fecSetIndex q, h.signature q, h.merkleRoot q⟩

theorem Committed.inRange (h : S.Committed Codeword slot f) : f ≤ 32736 := by
  have hpos := (S.shred (.data 0)).position_data (h.position (.data 0))
  rw [← h.fecSetIndex (.data 0)]
  exact hpos.2.2.1

/- The hash inputs of the tree. -/
def treeInputs (S : LeaderSet) (b : Bytes) : Prop :=
  (∃ q, b = Merkle.leafInput (S.shred q).leafBytes) ∨ b ∈ Merkle.treeInputs S.leaves

end LeaderSet

namespace Shred
variable [Hasher]

/- The hash inputs of `merkle_root`. -/
def rootInputs (x : Shred) (b : Bytes) : Prop :=
  b = Merkle.leafInput x.leafBytes ∨ b ∈ Merkle.proofInputs x.erasureShardIndex x.merkleLeaf x.merkleProof

omit [Hasher] in
theorem merkleProof_flatten (x : Shred) :
    (Merkle.chunksExact Merkle.proofEntrySize x.merkleProof).flatten = x.merkleProof :=
  (Merkle.chunksExact_count _ _ (by decide) _ x.merkleProof_length).2

end Shred

namespace LeaderSet
variable [Hasher] {S : LeaderSet} {Codeword : List Bytes → Prop} {slot f : ℕ} {x y : Shred} {q : Position}

theorem treeProof_eq (S : LeaderSet) (q : Position) :
    S.treeProof q = (MerkleLevels.siblings Merkle.cut Merkle.join 6 S.leaves q.erasureIndex).flatten := by
  have hi : q.erasureIndex < S.leaves.length := by
    rw [S.leaves_length]
    exact q.erasureIndex_lt
  have hclog : Nat.clog 2 S.leaves.length = 6 := by
    rw [S.leaves_length]
    exact Nat.clog_pow 2 6 (by decide)
  rw [← hclog, ← Merkle.Tree.proof_eq S.leaves_ne_nil _ hi]
  rfl

theorem Committed.merkleProof_eq (h : S.Committed Codeword slot f) (q : Position) :
    (S.shred q).merkleProof = (MerkleLevels.siblings Merkle.cut Merkle.join 6 S.leaves q.erasureIndex).flatten :=
  (h.merkleProof q).trans (S.treeProof_eq q)

/-- A shred that leads to the root of the tree, with a proof of any length, has the
hashed part of the shred at its position and the siblings the tree has there. -/
theorem pinned_by_root {E : Bytes → Prop} (hcf : Merkle.CollisionFree E) (hS : ∀ b, S.treeInputs b → E b)
    (hx : ∀ b, x.rootInputs b → E b) (hroot : x.merkleRoot = some S.tree.root) :
    x.leafBytes = (S.shred x.position).leafBytes ∧ Merkle.chunksExact Merkle.proofEntrySize x.merkleProof =
      MerkleLevels.siblings Merkle.cut Merkle.join 6 S.leaves x.position.erasureIndex := by
  let bs : List Bytes := Position.all.map fun q => (S.shred q).leafBytes
  have hleaves : bs.map Merkle.leaf = S.leaves := by
    simp only [bs, List.map_map]
    rfl
  have hne : bs.map Merkle.leaf ≠ [] := by
    rw [hleaves]
    exact S.leaves_ne_nil
  have htree : (Merkle.Tree.new (bs.map Merkle.leaf) hne).root = S.tree.root := by
    simp only [hleaves]
    rfl
  have hlen : bs.length = 2 ^ 6 := by
    simp only [bs, List.length_map, Position.all_length]
    rfl
  have hpins := Merkle.rootFromProof_pins hcf 6 bs hlen hne x.erasureShardIndex x.leafBytes x.merkleProof
    (by
      intro b hb
      rcases List.mem_cons.mp hb with rfl | hb
      · exact hx _ (.inl rfl)
      · obtain ⟨q, _, rfl⟩ := List.mem_map.mp hb
        exact hS _ (.inl ⟨q, rfl⟩))
    (by
      rw [hleaves]
      exact fun b hb => hS b (.inr hb))
    (fun b hb => hx b (.inr hb))
    (by
      rw [htree]
      exact hroot)
  obtain ⟨hleaf, hproof⟩ := hpins
  rw [hleaves] at hproof
  have hq := x.position.all_getElem
  rw [Shred.erasureShardIndex_eq, List.getElem?_map, hq, Option.map_some, Option.some.injEq] at hleaf
  rw [Shred.erasureShardIndex_eq] at hproof
  exact ⟨hleaf.symm, hproof⟩

/-- The root and the signature of the set pin the shred at its position. -/
theorem Committed.pins (h : S.Committed Codeword slot f) {E : Bytes → Prop} (hcf : Merkle.CollisionFree E)
    (hS : ∀ b, S.treeInputs b → E b) (hx : ∀ b, x.rootInputs b → E b) (hroot : x.merkleRoot = some S.tree.root)
    (hsig : x.signature = (S.data 0).signature) :
    Shred.Agrees (S.shred x.position) x (S.shred x.position).proofEnd := by
  obtain ⟨hleaf, hproof⟩ := pinned_by_root hcf hS hx hroot
  apply Shred.agrees_of_parts (hsig.trans (h.signature x.position).symm) hleaf
  -- the proof is the one the tree gives for this position
  rw [h.merkleProof_eq, ← x.merkleProof_flatten, hproof]

/-- The leader's own shreds need no hash but those of the tree. -/
theorem Committed.rootInputs (h : S.Committed Codeword slot f) (q : Position) {b : Bytes}
    (hb : (S.shred q).rootInputs b) : S.treeInputs b := by
  rcases hb with hb | hb
  · exact .inl ⟨q, hb⟩
  · right
    have hclog : Nat.clog 2 S.leaves.length = 6 := by
      rw [S.leaves_length]
      exact Nat.clog_pow 2 6 (by decide)
    have hentries : ∀ c ∈ MerkleLevels.siblings Merkle.cut Merkle.join 6 S.leaves q.erasureIndex,
        c.length = Merkle.proofEntrySize := MerkleLevels.siblings_forall _ _ Merkle.cut_length _ _ _
    rw [Merkle.proofInputs, h.merkleProof_eq, Merkle.chunksExact_flatten _ (by decide) _ hentries,
      Shred.erasureShardIndex_eq, h.position] at hb
    obtain ⟨p, hp, rfl⟩ := List.mem_map.mp hb
    rw [Merkle.treeInputs, hclog]
    exact List.mem_map_of_mem (MerkleLevels.walkPairs_siblings _ _ 6 _ _ _ (S.leaves_getElem q) p hp)

/-- What the set holds has the leader's bytes up to the end of the erasure shard. -/
def Loyal (S : LeaderSet) (set : FecSet) : Prop :=
  ∀ q y, set.held q = some y → Shred.Agrees (S.shred q) y (S.shred q).erasureEnd

variable {set set' : FecSet}

omit [Hasher] in
theorem Loyal.carries (h : S.Loyal set) : S.Carries set := fun q y hy => (h q y hy).erasureShard

omit [Hasher] in
theorem Loyal.accepted (h : S.Loyal set) {root : Hash32} (hneeded : x.kind = .code → set.isComplete = false)
    (hx : Shred.Agrees (S.shred x.position) x (S.shred x.position).proofEnd) : S.Loyal (set.accepted x root) := by
  intro q y hy
  rcases FecSet.accepted_held hneeded hy with hold | ⟨rfl, rfl⟩
  · exact h q y hold
  · have hle := (S.shred y.position).erasureEnd_le
    exact hx.mono (by omega)

/-- Recovery from shards of one codeword rebuilds the leader's shards. -/
theorem Loyal.recovered (h : S.Loyal set) (hS : S.Committed Codeword slot f) (hI : FecSet.Inv f set)
    (hsig : set.signature = (S.data 0).signature) (hc : set.canRecover = true) {rs : ReedSolomon}
    (hrs : rs.Rebuilds Codeword) {r : Except RecoverError (List ℕ)} (hok : set.recover rs = .ok (set', r)) :
    S.Loyal set' := by
  intro q y hy
  rcases FecSet.recover_held hI.toPlaced hc hok hy with hold | ⟨template, t, p, shard, out, ht, hrec, rfl, hin, hre⟩
  · exact h q y hold
  · obtain ⟨out', hrec', hshard⟩ := h.carries.reconstructs hI hrs hS.codeword hS.shardLength hc t
    rw [h.carries t template ht] at hrec
    obtain rfl : out = out' := Option.some.inj (hrec.symm.trans hrec')
    have hparsed := (FecSet.rebuild_ok hre).parsed
    rw [hsig, hshard p shard hin, ← hS.signature (.data p)] at hparsed
    have hk := ((S.shred (.data p)).position_data (hS.position (.data p))).1
    exact Shred.rebuiltBytes_agrees hk hparsed

end LeaderSet

namespace SetDraft
variable [Hasher] {D : SetDraft}

theorem sealedSet_leaves (hD : D.Valid) : (D.sealedSet hD).leaves = D.leaves := by
  rw [LeaderSet.leaves, leaves]
  apply List.map_congr_left
  intro q _
  rw [Shred.merkleLeaf, (sealedSet_parts hD q).2.2.2]

theorem sealedSet_committed (hD : D.Valid) {Codeword : List Bytes → Prop}
    (hc : Codeword (Position.all.map D.erasureShard)) :
    (D.sealedSet hD).Committed Codeword D.slot D.fecSetIndex where
  position := sealedSet_position hD
  slot q := (sealedSet_fields hD q).1
  fecSetIndex q := (sealedSet_fields hD q).2.2.1
  proofSize q := (sealedSet_fields hD q).2.2.2.1
  signature q := (sealedSet_signature hD q).trans (sealedSet_signature hD (.data 0)).symm
  merkleProof q := by
    rw [(sealedSet_parts hD q).2.2.1]
    simp only [LeaderSet.treeProof, LeaderSet.tree, sealedSet_leaves hD]
    rfl
  shardLength q r := (sealedSet_erasureShard_length hD q).trans (sealedSet_erasureShard_length hD r).symm
  codeword := by rwa [sealedSet_erasureShards]

end SetDraft
end Deshred
