import Deshred.Lib.MerkleLevels
import Deshred.Sha256
import Mathlib.Data.Nat.Log

/-!
# The Merkle tree of one FEC set (merkle.rs)

Leaves are the 64 shreds of a set in erasure-shard order. A node hashes the first
20 bytes of each child; a node with no right sibling pairs with itself. The tree
is kept as one vector, leaves first, then each level up to the root.
-/

namespace Deshred
open MerkleLevels

instance : Inhabited Hash32 := ⟨⟨List.replicate 32 0, rfl⟩⟩

namespace Merkle

def proofEntrySize : ℕ := 20

def ascii (s : String) : Bytes := s.toList.map fun c => UInt8.ofNat c.toNat
def leafPrefix : Bytes := 0x00 :: ascii "SOLANA_MERKLE_SHREDS_LEAF"
def nodePrefix : Bytes := 0x01 :: ascii "SOLANA_MERKLE_SHREDS_NODE"

/-- `chunks_exact(n)`: an incomplete last chunk is left out. -/
def chunksExact (n : ℕ) (b : Bytes) : List Bytes :=
  if 0 < n ∧ n ≤ b.length then b.take n :: chunksExact n (b.drop n) else []
termination_by b.length
decreasing_by
  rename_i h
  rw [List.length_drop]
  omega

theorem chunksExact_flatten (n : ℕ) (hn : 0 < n) (cs : List Bytes) (h : ∀ c ∈ cs, c.length = n) :
    chunksExact n cs.flatten = cs := by
  induction cs with
  | nil =>
    have hshort : ¬ (0 < n ∧ n ≤ ([] : Bytes).length) := by
      rw [List.length_nil]
      omega
    rw [List.flatten_nil, chunksExact, if_neg hshort]
  | cons c cs ih =>
    have hc := h c (List.mem_cons_self ..)
    have hlen : n ≤ (c :: cs).flatten.length := by simp [hc]
    rw [chunksExact, if_pos ⟨hn, hlen⟩, List.flatten_cons, List.take_left' hc, List.drop_left' hc,
      ih fun d hd => h d (List.mem_cons_of_mem _ hd)]

theorem chunksExact_length (n : ℕ) (b : Bytes) : ∀ c ∈ chunksExact n b, c.length = n := by
  induction b using chunksExact.induct (n := n) with
  | case1 b h ih =>
    rw [chunksExact, if_pos h]
    intro c hc
    rcases List.mem_cons.mp hc with rfl | hc
    · rw [List.length_take]
      omega
    · exact ih c hc
  | case2 b h =>
    rw [chunksExact, if_neg h]
    simp

theorem chunksExact_count (n k : ℕ) (hn : 0 < n) (b : Bytes) (h : b.length = k * n) :
    (chunksExact n b).length = k ∧ (chunksExact n b).flatten = b := by
  induction k generalizing b with
  | zero =>
    obtain rfl : b = [] := by simpa using h
    have hnil : chunksExact n ([] : Bytes) = [] := chunksExact_flatten n hn [] (by simp)
    simp [hnil]
  | succ k ih =>
    rw [Nat.succ_mul] at h
    have hdrop : (b.drop n).length = k * n := by
      rw [List.length_drop]
      omega
    obtain ⟨hlen, hflat⟩ := ih _ hdrop
    rw [chunksExact, if_pos ⟨hn, by omega⟩, List.length_cons, hlen, List.flatten_cons, hflat,
      List.take_append_drop]
    exact ⟨rfl, rfl⟩

section
variable [Hasher]

def leaf (bytes : Bytes) : Hash32 := hashv [leafPrefix, bytes]

/- Both operands hold at least 20 bytes: a digest or a proof entry. -/
def join (left right : Bytes) : Hash32 :=
  hashv [nodePrefix, left.take proofEntrySize, right.take proofEntrySize]

def rootFromProof (index : ℕ) (leaf : Hash32) (proof : Bytes) : Option Hash32 :=
  let (index, root) := (chunksExact proofEntrySize proof).foldl (fun (index, node) sibling =>
    (index >>> 1, if index % 2 = 0 then join node.val sibling else join sibling node.val)) (index, leaf)
  if index = 0 then some root else none

/- One pass of the inner loop of `Tree::new`: the parents of the level that
starts at `offset` are appended. -/
def pushParents (nodes : List Hash32) (offset size : ℕ) : List Hash32 :=
  (List.range' offset ((size + 1) / 2) 2).foldl (fun nodes i =>
    let right := min (i + 1) (offset + size - 1)
    nodes ++ [join (nodes.getD i default).val (nodes.getD right default).val]) nodes

def buildLevels (nodes : List Hash32) (offset size : ℕ) : List Hash32 :=
  if 1 < size then buildLevels (pushParents nodes offset size) (offset + size) ((size + 1) / 2)
  else nodes
termination_by size

/-- A full tree. -/
structure Tree where
  nodes : List Hash32
  numLeaves : ℕ
  nonempty : nodes ≠ []

def cut (d : Hash32) : Bytes := d.val.take proofEntrySize

omit [Hasher] in
@[simp] theorem cut_length (d : Hash32) : (cut d).length = proofEntrySize := by
  have hd := d.property
  simp only [cut, List.length_take, hd, proofEntrySize]
  rfl

/-- All levels, leaves first. -/
def allLevels (l : List Hash32) : List Hash32 :=
  if 1 < l.length then l ++ allLevels (levelUp cut join l) else l
termination_by l.length
decreasing_by
  rw [levelUp_length]
  omega

theorem join_cut (a b : Hash32) : join (cut a) (cut b) = join a.val b.val := by
  simp only [join, cut, List.take_take, Nat.min_self]

theorem pushParents_eq (front l : List Hash32) :
    pushParents (front ++ l) front.length l.length = front ++ l ++ levelUp cut join l := by
  -- after `k` parents the first `k` nodes of the next level have been appended
  have hstep : ∀ k ≤ (l.length + 1) / 2,
      (List.range' front.length k 2).foldl (fun nodes i =>
        nodes ++ [join (nodes.getD i default).val
          (nodes.getD (min (i + 1) (front.length + l.length - 1)) default).val]) (front ++ l) =
      front ++ l ++ (levelUp cut join l).take k := by
    intro k hk
    induction k with
    | zero => simp
    | succ k ih =>
      have hget : ∀ i, i < l.length → (front ++ l ++ (levelUp cut join l).take k).getD
          (front.length + i) default = l.getD i default := by
        intro i hi
        rw [List.getD_eq_getElem?_getD, List.getElem?_append_left (by simp; omega),
          List.getElem?_append_right (by omega), Nat.add_sub_cancel_left, ← List.getD_eq_getElem?_getD]
      have hlast : min (front.length + 2 * k + 1) (front.length + l.length - 1) =
          front.length + min (2 * k + 1) (l.length - 1) := by omega
      have h2k : 2 * k < l.length := by omega
      have hsib : l[2 * k + 1]?.getD l[2 * k] = l.getD (min (2 * k + 1) (l.length - 1)) default := by
        rw [List.getD_eq_getElem?_getD]
        by_cases hlt : 2 * k + 1 < l.length
        · rw [Nat.min_eq_left (by omega), List.getElem?_eq_getElem hlt]
          rfl
        · have hmin : min (2 * k + 1) (l.length - 1) = 2 * k := by omega
          rw [hmin, List.getElem?_eq_none (by omega), List.getElem?_eq_getElem h2k]
          rfl
      have hup : (levelUp cut join l)[k]? = some (join (l.getD (2 * k) default).val
          (l.getD (min (2 * k + 1) (l.length - 1)) default).val) := by
        rw [levelUp, List.getElem?_map, pairs_getElem?, List.getElem?_eq_getElem h2k, ← hsib,
          List.getD_eq_getElem _ _ h2k]
        simp only [Option.map_some, join_cut]
      rw [List.range'_concat, List.foldl_append, ih (by omega)]
      simp only [List.foldl_cons, List.foldl_nil, hlast]
      rw [hget _ (by omega), hget _ (by omega), List.append_assoc _ _ [_], List.take_add_one, hup]
      rfl
  have hfull : (levelUp cut join l).take ((l.length + 1) / 2) = levelUp cut join l := by
    rw [← levelUp_length cut join l, List.take_length]
  rw [pushParents, hstep _ le_rfl, hfull]

theorem buildLevels_eq (front l : List Hash32) :
    buildLevels (front ++ l) front.length l.length = front ++ allLevels l := by
  induction l using allLevels.induct generalizing front with
  | case1 l h ih =>
    have hlen : front.length + l.length = (front ++ l).length := by simp
    have hall : allLevels l = l ++ allLevels (levelUp cut join l) := by rw [allLevels, if_pos h]
    rw [buildLevels, if_pos h, pushParents_eq, hlen, ← levelUp_length cut join l, ih (front ++ l),
      hall, List.append_assoc]
  | case2 l h => rw [buildLevels, if_neg h, allLevels, if_neg h]

theorem allLevels_ne_nil (l : List Hash32) (h : l ≠ []) : allLevels l ≠ [] := by
  rw [allLevels]
  split
  · simp [h]
  · exact h

namespace Tree

theorem new_nonempty {leaves : List Hash32} (h : leaves ≠ []) :
    buildLevels leaves 0 leaves.length ≠ [] := by
  have heq := buildLevels_eq [] leaves
  simp only [List.nil_append, List.length_nil] at heq
  rw [heq]
  exact allLevels_ne_nil leaves h

def new (leaves : List Hash32) (h : leaves ≠ []) : Tree where
  nodes := buildLevels leaves 0 leaves.length
  numLeaves := leaves.length
  nonempty := new_nonempty h

theorem new_nodes {leaves : List Hash32} (h : leaves ≠ []) : (new leaves h).nodes = allLevels leaves :=
  buildLevels_eq [] leaves

def root (tree : Tree) : Hash32 := tree.nodes.getLast tree.nonempty

def proofLoop (nodes : List Hash32) (offset size index : ℕ) : List Bytes :=
  if 1 < size then
    (nodes.getD (offset + min (index ^^^ 1) (size - 1)) default).val.take proofEntrySize ::
      proofLoop nodes (offset + size) ((size + 1) / 2) (index >>> 1)
  else []
termination_by size

def proof (tree : Tree) (index : ℕ) (_ : index < tree.numLeaves) : List Bytes :=
  proofLoop tree.nodes 0 tree.numLeaves index

theorem allLevels_last (l : List Hash32) (h : l ≠ []) :
    ∃ r, level cut join l (Nat.clog 2 l.length) = [r] ∧ (allLevels l).getLast? = some r := by
  induction l using allLevels.induct with
  | case1 l hlt ih =>
    have hup : levelUp cut join l ≠ [] := by
      intro hnil
      have hlen := levelUp_length cut join l
      rw [hnil, List.length_nil] at hlen
      omega
    obtain ⟨r, hr, hlast⟩ := ih hup
    have hclog : Nat.clog 2 l.length = Nat.clog 2 (levelUp cut join l).length + 1 := by
      rw [Nat.clog_of_two_le (by decide) hlt, levelUp_length]
      rfl
    refine ⟨r, by rw [hclog, level, hr], ?_⟩
    rw [allLevels, if_pos hlt, List.getLast?_append, hlast, Option.some_or]
  | case2 l hlt =>
    obtain ⟨r, rfl⟩ : ∃ r, l = [r] := by
      rw [← List.length_eq_one_iff]
      have := List.length_pos_iff.mpr h
      omega
    exact ⟨r, by simp [level], by simp [allLevels]⟩

/-- The root is the one node `ceil (log2 n)` levels above the leaves. -/
theorem root_eq {leaves : List Hash32} (h : leaves ≠ []) :
    level cut join leaves (Nat.clog 2 leaves.length) = [(new leaves h).root] := by
  obtain ⟨r, hr, hlast⟩ := allLevels_last leaves h
  have hroot : (new leaves h).nodes.getLast? = some (new leaves h).root :=
    List.getLast?_eq_some_getLast _
  rw [new_nodes, hlast] at hroot
  rw [hr, Option.some.inj hroot]

theorem proofLoop_eq (front l : List Hash32) (i : ℕ) (hi : i < l.length) :
    proofLoop (front ++ allLevels l) front.length l.length i =
      siblings cut join (Nat.clog 2 l.length) l i := by
  induction l using allLevels.induct generalizing front i with
  | case1 l hlt ih =>
    have hclog : Nat.clog 2 l.length = Nat.clog 2 (levelUp cut join l).length + 1 := by
      rw [Nat.clog_of_two_le (by decide) hlt, levelUp_length]
      rfl
    have hall : allLevels l = l ++ allLevels (levelUp cut join l) := by rw [allLevels, if_pos hlt]
    have hlen : front.length + l.length = (front ++ l).length := by simp
    have hhalf : i >>> 1 < (levelUp cut join l).length := by
      rw [levelUp_length, Nat.shiftRight_one]
      omega
    have hget : (front ++ allLevels l).getD (front.length + min (i ^^^ 1) (l.length - 1)) default =
        l.getD (min (i ^^^ 1) (l.length - 1)) default := by
      rw [List.getD_eq_getElem?_getD, List.getElem?_append_right (by omega), Nat.add_sub_cancel_left,
        hall, List.getElem?_append_left (by omega), ← List.getD_eq_getElem?_getD]
    rw [proofLoop, if_pos hlt, hget, hclog, siblings, hall, ← List.append_assoc, hlen,
      ← levelUp_length cut join l, ih (front ++ l) _ hhalf, Nat.shiftRight_one]
    rfl
  | case2 l hlt =>
    have hclog : Nat.clog 2 l.length = 0 := Nat.clog_of_right_le_one (by omega) 2
    rw [proofLoop, if_neg hlt, hclog, siblings]

/-- The proof of a leaf holds its sibling on every level. -/
theorem proof_eq {leaves : List Hash32} (h : leaves ≠ []) (i : ℕ) (hi : i < leaves.length) :
    (new leaves h).proof i hi = siblings cut join (Nat.clog 2 leaves.length) leaves i := by
  simp only [proof, new_nodes]
  exact proofLoop_eq [] leaves i hi

end Tree

/-- The fold of `root_from_proof` is a walk over the proof's entries. -/
theorem rootFromProof_eq (index : ℕ) (leaf : Hash32) (proof : Bytes) :
    rootFromProof index leaf proof =
      if index / 2 ^ (chunksExact proofEntrySize proof).length = 0 then
        some (walk cut join index leaf (chunksExact proofEntrySize proof)) else none := by
  have hfold : ∀ (cs : List Bytes) (i : ℕ) (x : Hash32), cs.foldl (fun (p : ℕ × Hash32) sibling =>
      (p.1 >>> 1, if p.1 % 2 = 0 then join p.2.val sibling else join sibling p.2.val)) (i, x) =
      (i / 2 ^ cs.length, walk cut join i x cs) := by
    intro cs
    induction cs with
    | nil =>
      intro i x
      simp [walk]
    | cons c cs ih =>
      intro i x
      have hstep : (if i % 2 = 0 then join x.val c else join c x.val) =
          join (stepPair cut i x c).1 (stepPair cut i x c).2 := by
        unfold stepPair
        split <;> simp only [join, cut, List.take_take, Nat.min_self]
      rw [List.foldl_cons, ih, hstep, walk, Nat.shiftRight_one, List.length_cons, pow_succ',
        Nat.div_div_eq_div_mul]
  simp only [rootFromProof, hfold]

theorem rootFromProof_index_zero (leaf : Hash32) (proof : Bytes) :
    (rootFromProof 0 leaf proof).isSome := by
  rw [rootFromProof_eq]
  simp

theorem rootFromProof_proof {leaves : List Hash32} (h : leaves ≠ []) (i : ℕ) (hi : i < leaves.length) :
    rootFromProof i leaves[i] ((Tree.new leaves h).proof i hi).flatten =
      some (Tree.new leaves h).root := by
  have hentries : ∀ c ∈ (Tree.new leaves h).proof i hi, c.length = proofEntrySize := by
    rw [Tree.proof_eq]
    exact siblings_forall cut join cut_length _ _ _
  have hpos : 0 < proofEntrySize := by decide
  have hlog : leaves.length ≤ 2 ^ Nat.clog 2 leaves.length := Nat.le_pow_clog (by decide) _
  have hwalk := walk_siblings cut join (Nat.clog 2 leaves.length) leaves i leaves[i]
    (List.getElem?_eq_getElem hi)
  have hzero : i / 2 ^ Nat.clog 2 leaves.length = 0 := Nat.div_eq_of_lt (by omega)
  rw [hzero, Tree.root_eq h] at hwalk
  rw [rootFromProof_eq, chunksExact_flatten _ hpos _ hentries, Tree.proof_eq, siblings_length,
    if_pos hzero]
  exact hwalk.symm

/-- Every proof of a tree over any number of leaves leads to its root, and has one
entry for each level. -/
theorem every_proof_verifies {leaves : List Hash32} (h : leaves ≠ []) (i : ℕ) (hi : i < leaves.length) :
    rootFromProof i leaves[i] ((Tree.new leaves h).proof i hi).flatten = some (Tree.new leaves h).root ∧
      ((Tree.new leaves h).proof i hi).length = Nat.clog 2 leaves.length := by
  refine ⟨rootFromProof_proof h i hi, ?_⟩
  rw [Tree.proof_eq, siblings_length]

omit [Hasher] in
/- Three leaves: the last one pairs with itself. -/
theorem every_proof_verifies_three :
    let leaves : List Hash32 := [⟨List.replicate 32 0, rfl⟩, ⟨List.replicate 32 1, rfl⟩, ⟨List.replicate 32 2, rfl⟩]
    let tree := @Tree.new sha256Hasher leaves (List.cons_ne_nil _ _)
    @rootFromProof sha256Hasher 2 ⟨List.replicate 32 2, rfl⟩ (tree.proof 2 (Nat.lt_succ_self 2)).flatten =
        some tree.root ∧
      (tree.proof 2 (Nat.lt_succ_self 2)).length = Nat.clog 2 3 := by
  intro leaves
  exact @every_proof_verifies sha256Hasher leaves (List.cons_ne_nil _ _) 2 (Nat.lt_succ_self 2)

/-! ### What a root fixes -/

def leafInput (bytes : Bytes) : Bytes := leafPrefix ++ bytes
def nodeInput (p : Bytes × Bytes) : Bytes := nodePrefix ++ p.1 ++ p.2

/-- Hash inputs of the joins of a tree. -/
def treeInputs (leaves : List Hash32) : List Bytes :=
  (treePairs cut join (Nat.clog 2 leaves.length) leaves).map nodeInput

/-- Hash inputs of the joins `rootFromProof` evaluates. -/
def proofInputs (index : ℕ) (leaf : Hash32) (proof : Bytes) : List Bytes :=
  (walkPairs cut join index leaf (chunksExact proofEntrySize proof)).map nodeInput

/-- No two different inputs in `E` have digests with the same first 20 bytes. -/
def CollisionFree (E : Bytes → Prop) : Prop :=
  ∀ x y, E x → E y → cut (Hasher.digest x) = cut (Hasher.digest y) → x = y

theorem collisionFree_of_inverse {E : Bytes → Prop} (g : Bytes → Bytes)
    (h : ∀ b, E b → g (cut (Hasher.digest b)) = b) : CollisionFree E := by
  intro x y hx hy heq
  rw [← h x hx, heq, h y hy]

theorem leaf_eq (bytes : Bytes) : leaf bytes = Hasher.digest (leafInput bytes) := by
  simp [leaf, hashv, leafInput]

theorem join_eq (p : Bytes × Bytes) (h1 : p.1.length = proofEntrySize) (h2 : p.2.length = proofEntrySize) :
    join p.1 p.2 = Hasher.digest (nodeInput p) := by
  have h1' : p.1.take proofEntrySize = p.1 := List.take_of_length_le h1.le
  have h2' : p.2.take proofEntrySize = p.2 := List.take_of_length_le h2.le
  simp [join, hashv, nodeInput, h1', h2']

omit [Hasher] in
theorem nodeInput_ne_leafInput (p : Bytes × Bytes) (b : Bytes) : nodeInput p ≠ leafInput b := by
  simp [nodeInput, leafInput, nodePrefix, leafPrefix]

/-- In a tree over a power of two of leaves, a proof of any length that reaches the
root is the tree's own proof for the leaf at that index. -/
theorem rootFromProof_pins {E : Bytes → Prop} (hcf : CollisionFree E) (m : ℕ) (bs : List Bytes)
    (hlen : bs.length = 2 ^ m) (hne : bs.map leaf ≠ []) (index : ℕ) (b proof : Bytes)
    (hleaves : ∀ x ∈ b :: bs, E (leafInput x)) (htree : ∀ x ∈ treeInputs (bs.map leaf), E x)
    (hproof : ∀ x ∈ proofInputs index (leaf b) proof, E x)
    (hroot : rootFromProof index (leaf b) proof = some (Tree.new (bs.map leaf) hne).root) :
    bs[index]? = some b ∧
      chunksExact proofEntrySize proof = siblings cut join m (bs.map leaf) index := by
  let P : Bytes × Bytes → Prop := fun p =>
    E (nodeInput p) ∧ p.1.length = proofEntrySize ∧ p.2.length = proofEntrySize
  have hclog : Nat.clog 2 (bs.map leaf).length = m := by
    rw [List.length_map, hlen, Nat.clog_pow 2 m (by decide)]
  have hP : ∀ p q, P p → P q → cut (join p.1 p.2) = cut (join q.1 q.2) → p = q := by
    intro p q hp hq heq
    rw [join_eq p hp.2.1 hp.2.2, join_eq q hq.2.1 hq.2.2] at heq
    have hin := hcf _ _ hp.1 hq.1 heq
    simp only [nodeInput, List.append_assoc, List.append_cancel_left_eq] at hin
    have hboth := List.append_inj hin (hp.2.1.trans hq.2.1.symm)
    exact Prod.ext hboth.1 hboth.2
  have hPtree : ∀ p ∈ treePairs cut join m (bs.map leaf), P p := by
    intro p hp
    have hcuts := treePairs_forall cut join (Q := fun p => p.1.length = proofEntrySize ∧
      p.2.length = proofEntrySize) (fun a b => ⟨cut_length a, cut_length b⟩) m _ p hp
    rw [← hclog] at hp
    exact ⟨htree _ (List.mem_map_of_mem hp), hcuts⟩
  have hPwalk : ∀ p ∈ walkPairs cut join index (leaf b) (chunksExact proofEntrySize proof), P p := by
    intro p hp
    have hchunk := chunksExact_length proofEntrySize proof
    have hcuts := walkPairs_forall cut join (Q := fun p => p.1.length = proofEntrySize ∧
      p.2.length = proofEntrySize) _ (fun x s hs => ⟨⟨cut_length x, hchunk s hs⟩, hchunk s hs, cut_length x⟩)
      _ _ p hp
    exact ⟨hproof _ (List.mem_map_of_mem hp), hcuts⟩
  have hdom : ∀ y ∈ leaf b :: bs.map leaf, ∀ p, P p → cut (join p.1 p.2) ≠ cut y := by
    intro y hy p hp heq
    rw [← List.map_cons] at hy
    obtain ⟨x, hx, rfl⟩ := List.mem_map.mp hy
    rw [join_eq p hp.2.1 hp.2.2, leaf_eq] at heq
    exact nodeInput_ne_leafInput p x (hcf _ _ hp.1 (hleaves x hx) heq)
  rw [rootFromProof_eq] at hroot
  split at hroot
  · rename_i hzero
    have hidx : index < 2 ^ (chunksExact proofEntrySize proof).length := by
      rwa [Nat.div_eq_zero_iff_lt (Nat.two_pow_pos _)] at hzero
    have htop : level cut join (bs.map leaf) m = [(Tree.new (bs.map leaf) hne).root] := by
      rw [← Tree.root_eq hne, hclog]
    obtain ⟨y, hy, hcut, hss⟩ := walk_root_pins cut join hP m (bs.map leaf) index (leaf b)
      (Tree.new (bs.map leaf) hne).root _ (by simpa using hlen) hidx hPtree hPwalk hdom htop
      (by rw [Option.some.inj hroot])
    rw [List.getElem?_map] at hy
    obtain ⟨c, hc, rfl⟩ := Option.map_eq_some_iff.mp hy
    rw [leaf_eq, leaf_eq] at hcut
    have hin := hcf _ _ (hleaves b (List.mem_cons_self ..))
      (hleaves c (List.mem_cons_of_mem _ (List.mem_of_getElem? hc))) hcut
    simp only [leafInput, List.append_cancel_left_eq] at hin
    exact ⟨hin ▸ hc, hss⟩
  · contradiction
end

end Merkle
end Deshred
