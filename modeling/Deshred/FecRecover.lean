import Deshred.FecInvariant

/-!
# What recovery does to a FEC set

The datagram `recover` pieces together has a closed form, so its loop is: rebuild
the missing positions in ascending order until one fails, install what was rebuilt.
-/

namespace Deshred

theorem copyFromSlice_append (a gap c src : Bytes) (h : src.length = gap.length) :
    FecSet.copyFromSlice (a ++ gap ++ c) a.length src = .ok (a ++ src ++ c) := by
  have hle : a.length + src.length ≤ (a ++ gap ++ c).length := by
    simp only [List.length_append]
    omega
  have hdrop : (a ++ gap ++ c).drop (a.length + src.length) = c := by
    rw [h, ← List.length_append, List.drop_left]
  rw [FecSet.copyFromSlice, if_pos hle, hdrop, List.append_assoc a gap c, List.take_left]

namespace FecSet

/-- A recovered datagram: the set's signature, the rebuilt shard, the template's
chained root, a zero proof and the template's retransmitter signature. -/
def rebuiltBytes (signature : Signature) (template : Shred) (shard : Bytes) : Bytes :=
  signature.val ++ shard ++ template.chainedMerkleRoot ++ List.replicate (20 * template.proofSize) 0 ++
    template.retransmitterSignature.elim [] Subtype.val

theorem recoveredBytes_eq (signature : Signature) (template : Shred) {shard : Bytes}
    (h : shard.length = template.erasureShard.length) :
    recoveredBytes signature shard template.chainedMerkleRoot template.retransmitterSignature =
      .ok (rebuiltBytes signature template shard) := by
  have hs := signature.property
  have hc := template.chainedMerkleRoot_length
  have hl := template.erasureShard_length
  have hr := template.retransmitterSignature_isSome
  have hzero : ∀ m n : ℕ, List.replicate (m + n) (0 : UInt8) = List.replicate m 0 ++ List.replicate n 0 :=
    fun m n => List.replicate_add ..
  let tail := 20 * template.proofSize + if template.resigned then 64 else 0
  have hwire : dataShredSize = 64 + (shard.length + (32 + tail)) := by
    simp only [dataShredSize, tail]
    omega
  have h1 : copyFromSlice (List.replicate dataShredSize 0) 0 signature.val =
      .ok (signature.val ++ List.replicate (shard.length + (32 + tail)) 0) := by
    have hcopy := copyFromSlice_append [] (List.replicate 64 0)
      (List.replicate (shard.length + (32 + tail)) 0) signature.val (by simp [hs])
    rw [hwire, hzero]
    exact hcopy
  have h2 : copyFromSlice (signature.val ++ List.replicate (shard.length + (32 + tail)) 0) signatureSize
      shard = .ok (signature.val ++ shard ++ List.replicate (32 + tail) 0) := by
    have hcopy := copyFromSlice_append signature.val (List.replicate shard.length 0)
      (List.replicate (32 + tail) 0) shard (by simp)
    rw [hzero shard.length, ← List.append_assoc]
    rw [hs] at hcopy
    exact hcopy
  have h3 : copyFromSlice (signature.val ++ shard ++ List.replicate (32 + tail) 0)
      (signatureSize + shard.length) template.chainedMerkleRoot =
      .ok (signature.val ++ shard ++ template.chainedMerkleRoot ++ List.replicate tail 0) := by
    have hcopy := copyFromSlice_append (signature.val ++ shard) (List.replicate 32 0)
      (List.replicate tail 0) template.chainedMerkleRoot (by simp [hc])
    rw [hzero 32, ← List.append_assoc]
    rw [List.length_append, hs] at hcopy
    exact hcopy
  cases hret : template.retransmitterSignature with
  | none =>
    have hres : template.resigned = false := by simpa [hret] using hr.symm
    have hsteps : recoveredBytes signature shard template.chainedMerkleRoot none =
        .ok (signature.val ++ shard ++ template.chainedMerkleRoot ++ List.replicate tail 0) := by
      simp only [recoveredBytes, h1, h2, h3, bind, Except.bind]
      rfl
    rw [hsteps]
    simp [rebuiltBytes, hret, tail, hres]
  | some sig =>
    have hsteps : recoveredBytes signature shard template.chainedMerkleRoot (some sig) =
        copyFromSlice (signature.val ++ shard ++ template.chainedMerkleRoot ++ List.replicate tail 0)
          ((signature.val ++ shard ++ template.chainedMerkleRoot ++ List.replicate tail 0).length - signatureSize)
          sig.val := by
      simp only [recoveredBytes, h1, h2, h3, bind, Except.bind]
    rw [hsteps]
    have hres : template.resigned = true := by simpa [hret] using hr.symm
    have htail : tail = 20 * template.proofSize + 64 := by simp [tail, hres]
    have hcopy := copyFromSlice_append (signature.val ++ shard ++ template.chainedMerkleRoot ++
      List.replicate (20 * template.proofSize) 0) (List.replicate 64 0) [] sig.val (by simp [sig.property])
    have hlen : (signature.val ++ shard ++ template.chainedMerkleRoot ++ List.replicate tail 0).length -
        signatureSize = (signature.val ++ shard ++ template.chainedMerkleRoot ++
          List.replicate (20 * template.proofSize) (0 : UInt8)).length := by
      simp only [List.length_append, List.length_replicate, htail, signatureSize]
      omega
    have heq : signature.val ++ shard ++ template.chainedMerkleRoot ++ List.replicate tail 0 =
        signature.val ++ shard ++ template.chainedMerkleRoot ++
          List.replicate (20 * template.proofSize) 0 ++ List.replicate 64 0 ++ [] := by
      rw [htail, hzero]
      simp
    simp only [hlen]
    rw [heq, hcopy]
    simp [rebuiltBytes, hret]

/-- What the loop makes of the reconstructed shard at a missing position. -/
def rebuild (signature : Signature) (template : Shred) (p : Fin 32) (shard : Bytes) :
    Except RecoverError Shred :=
  recoveredShred template p (rebuiltBytes signature template shard)

/- A rebuilt shred: the right place, and the headers of the template. -/
structure Rebuilt (signature : Signature) (template : Shred) (p : Fin 32) (shard : Bytes)
    (x : Shred) : Prop where
  position : x.position = .data p
  slot : x.slot = template.slot
  fecSetIndex : x.fecSetIndex = template.fecSetIndex
  version : x.version = template.version
  parsed : Shred.parse (rebuiltBytes signature template shard) = .ok x

theorem rebuild_ok {signature : Signature} {template : Shred} {p : Fin 32} {shard : Bytes} {x : Shred}
    (h : rebuild signature template p shard = .ok x) : Rebuilt signature template p shard x := by
  unfold rebuild recoveredShred at h
  split at h
  · contradiction
  · rename_i y hy
    dsimp only at h
    split at h
    · contradiction
    · rename_i hheaders
      cases h
      simp only [not_or, not_not] at hheaders
      obtain ⟨hkind, hslot, hindex, hfsi, hver⟩ := hheaders
      refine ⟨?_, hslot, hfsi, hver, hy⟩
      obtain ⟨q, hq⟩ := x.exists_position_data hkind
      have hpos := x.position_data hq
      have hqp : q = p := Fin.ext (by omega)
      rw [hq, hqp]

theorem rebuild_of_parse {signature : Signature} {template : Shred} {p : Fin 32} {shard : Bytes} {x : Shred}
    (h : Rebuilt signature template p shard x) : rebuild signature template p shard = .ok x := by
  have hpos := x.position_data h.position
  have hindex : x.index = template.fecSetIndex + p := by rw [hpos.2.1, h.fecSetIndex]
  have hgood : ¬ (x.kind ≠ .data ∨ x.slot ≠ template.slot ∨ x.index ≠ template.fecSetIndex + p ∨
      x.fecSetIndex ≠ template.fecSetIndex ∨ x.version ≠ template.version) := by
    simp [hpos.1, h.slot, hindex, h.fecSetIndex, h.version]
  simp only [rebuild, recoveredShred, h.parsed]
  rw [if_neg hgood]

/-- The shreds rebuilt until the first failure, and that failure. -/
def rebuildAll (signature : Signature) (template : Shred) :
    List (Fin 32 × Bytes × Bool) → List (Fin 32 × Shred) × Option RecoverError
  | [] => ([], none)
  | (_, _, true) :: rest => rebuildAll signature template rest
  | (p, shard, false) :: rest =>
    match rebuild signature template p shard with
    | .error e => ([], some e)
    | .ok x => ((p, x) :: (rebuildAll signature template rest).1, (rebuildAll signature template rest).2)

def installAll (set : FecSet) (l : List (Fin 32 × Shred)) : FecSet :=
  l.foldl (fun set x => set.install x.1 x.2) set

/- How the loop ends, given what was rebuilt. -/
def ending (set : FecSet) (f : ℕ) (recovered : List ℕ) :
    List (Fin 32 × Shred) × Option RecoverError → FecSet × Except RecoverError (List ℕ)
  | (l, none) => ((set.installAll l).dropCode, .ok (recovered ++ l.map fun x => f + x.1))
  | (l, some e) => (set.installAll l, .error e)

theorem recoverLoop_eq (template : Shred) (items : List (Fin 32 × Bytes × Bool))
    (hlen : ∀ p shard, (p, shard, false) ∈ items → shard.length = template.erasureShard.length)
    (set : FecSet) (recovered : List ℕ) :
    recoverLoop template items set recovered =
      .ok (set.ending template.fecSetIndex recovered (rebuildAll set.signature template items)) := by
  induction items generalizing set recovered with
  | nil => simp [recoverLoop, rebuildAll, ending, installAll]
  | cons item rest ih =>
    obtain ⟨p, shard, present⟩ := item
    have hrest : ∀ p shard, (p, shard, false) ∈ rest → shard.length = template.erasureShard.length :=
      fun p shard h => hlen p shard (List.mem_cons_of_mem _ h)
    cases present with
    | true => exact ih hrest set recovered
    | false =>
      have hbytes := recoveredBytes_eq set.signature template (hlen p shard (List.mem_cons_self ..))
      rw [recoverLoop, if_neg (by simp), hbytes]
      have hdef : recoveredShred template p (rebuiltBytes set.signature template shard) =
          rebuild set.signature template p shard := rfl
      cases hre : rebuild set.signature template p shard with
      | error e => simp only [hdef, hre, rebuildAll, ending, installAll, List.foldl_nil]
      | ok x =>
        have hih := ih hrest (set.install p x) (recovered ++ [template.fecSetIndex + p])
        simp only [hdef, hre, hih, rebuildAll]
        have hsig : (set.install p x).signature = set.signature := rfl
        rw [hsig]
        rcases rebuildAll set.signature template rest with ⟨l, _ | e⟩
        · simp [ending, installAll]
        · simp [ending, installAll]

/-! ### The rebuilt shreds -/

/- The missing positions, in ascending order. -/
def missing (set : FecSet) : List (Fin 32) := (List.finRange 32).filter fun p => (set.data p).isNone

theorem mem_missing {set : FecSet} {p : Fin 32} : p ∈ set.missing ↔ set.data p = none := by
  simp [missing]

theorem missing_nodup (set : FecSet) : set.missing.Nodup := (List.nodup_finRange 32).filter _

/-- A failure stops strictly before the end of the missing positions, with what
comes next being what failed. -/
theorem rebuildAll_positions (signature : Signature) (template : Shred) (items : List (Fin 32 × Bytes × Bool)) :
    ∃ rest, (items.filter fun x => !x.2.2).map Prod.fst =
        (rebuildAll signature template items).1.map Prod.fst ++ rest ∧
      ((rebuildAll signature template items).2 = none ↔ rest = []) := by
  induction items with
  | nil => exact ⟨[], by simp [rebuildAll], by simp [rebuildAll]⟩
  | cons item items ih =>
    obtain ⟨p, shard, present⟩ := item
    obtain ⟨rest, heq, hend⟩ := ih
    cases present with
    | true =>
      refine ⟨rest, ?_, hend⟩
      rw [List.filter_cons_of_neg (by simp)]
      exact heq
    | false =>
      rw [List.filter_cons_of_pos (by simp), List.map_cons]
      cases hre : rebuild signature template p shard with
      | error e => exact ⟨_, by simp only [rebuildAll, hre]; rfl, by simp [rebuildAll, hre]⟩
      | ok x => exact ⟨rest, by simp [rebuildAll, hre, heq], by simpa [rebuildAll, hre] using hend⟩

theorem mem_rebuildAll {signature : Signature} {template : Shred} {items : List (Fin 32 × Bytes × Bool)}
    {p : Fin 32} {x : Shred} (h : (p, x) ∈ (rebuildAll signature template items).1) :
    ∃ shard, (p, shard, false) ∈ items ∧ rebuild signature template p shard = .ok x := by
  induction items with
  | nil => simp [rebuildAll] at h
  | cons item items ih =>
    obtain ⟨q, shard, present⟩ := item
    cases present with
    | true =>
      obtain ⟨shard', hmem, hok⟩ := ih h
      exact ⟨shard', List.mem_cons_of_mem _ hmem, hok⟩
    | false =>
      cases hre : rebuild signature template q shard with
      | error e => simp [rebuildAll, hre] at h
      | ok y =>
        simp only [rebuildAll, hre, List.mem_cons, Prod.mk.injEq] at h
        rcases h with ⟨rfl, rfl⟩ | h
        · exact ⟨shard, List.mem_cons_self .., hre⟩
        · obtain ⟨shard', hmem, hok⟩ := ih h
          exact ⟨shard', List.mem_cons_of_mem _ hmem, hok⟩

theorem rebuildAll_total {signature : Signature} {template : Shred} {items : List (Fin 32 × Bytes × Bool)}
    (h : ∀ p shard, (p, shard, false) ∈ items → ∃ x, rebuild signature template p shard = .ok x) :
    (rebuildAll signature template items).2 = none := by
  induction items with
  | nil => rfl
  | cons item items ih =>
    obtain ⟨p, shard, present⟩ := item
    have hrest := ih fun p shard hm => h p shard (List.mem_cons_of_mem _ hm)
    cases present with
    | true => exact hrest
    | false =>
      obtain ⟨x, hx⟩ := h p shard (List.mem_cons_self ..)
      simp [rebuildAll, hx, hrest]

/-! ### Installing them -/

theorem installAll_fields (set : FecSet) (l : List (Fin 32 × Shred)) :
    (set.installAll l).code = set.code ∧ (set.installAll l).numCode = set.numCode ∧
      (set.installAll l).root = set.root ∧ (set.installAll l).signature = set.signature := by
  induction l generalizing set with
  | nil => exact ⟨rfl, rfl, rfl, rfl⟩
  | cons x l ih => exact ih (set.install x.1 x.2)

theorem installAll_keeps {set : FecSet} {l : List (Fin 32 × Shred)} {p : Fin 32} (h : p ∉ l.map Prod.fst) :
    (set.installAll l).data p = set.data p := by
  induction l generalizing set with
  | nil => rfl
  | cons x l ih =>
    simp only [List.map_cons, List.mem_cons, not_or] at h
    have hrest : ((set.install x.1 x.2).installAll l).data p = (set.install x.1 x.2).data p := ih h.2
    have hset : (set.install x.1 x.2).data p = set.data p := Function.update_of_ne h.1 _ _
    exact hrest.trans hset

theorem installAll_data {set : FecSet} {l : List (Fin 32 × Shred)} (hnd : (l.map Prod.fst).Nodup)
    {p : Fin 32} {x : Shred} (h : (p, x) ∈ l) : (set.installAll l).data p = some x := by
  induction l generalizing set with
  | nil => simp at h
  | cons y l ih =>
    simp only [List.map_cons, List.nodup_cons] at hnd
    rcases List.mem_cons.mp h with rfl | h
    · have hkeep : ((set.install p x).installAll l).data p = (set.install p x).data p :=
        installAll_keeps hnd.1
      have hset : (set.install p x).data p = some x := Function.update_self ..
      exact hkeep.trans hset
    · exact ih hnd.2 h

theorem installAll_from {set : FecSet} {l : List (Fin 32 × Shred)} {p : Fin 32} {x : Shred}
    (h : (set.installAll l).data p = some x) : set.data p = some x ∨ (p, x) ∈ l := by
  induction l generalizing set with
  | nil => exact .inl h
  | cons y l ih =>
    have hfrom : (set.install y.1 y.2).data p = some x ∨ (p, x) ∈ l := ih h
    rcases hfrom with hold | hnew
    · rcases update_eq_some hold with ⟨rfl, rfl⟩ | hold
      · exact .inr (List.mem_cons_self ..)
      · exact .inl hold
    · exact .inr (List.mem_cons_of_mem _ hnew)

theorem Placed.install {f : ℕ} {set : FecSet} (hP : Placed f set) {p : Fin 32} {x : Shred}
    (hp : x.position = .data p) (hf : x.fecSetIndex = f) (hnew : set.data p = none) :
    Placed f (set.install p x) where
  data_at q y hy := by
    rcases update_eq_some hy with ⟨rfl, rfl⟩ | hy
    · exact ⟨hp, hf⟩
    · exact hP.data_at q y hy
  code_at := hP.code_at
  num_data := by simp only [FecSet.install, occupied_update hnew, hP.num_data]
  num_code := hP.num_code

theorem Placed.installAll {f : ℕ} {set : FecSet} (hP : Placed f set) {l : List (Fin 32 × Shred)}
    (hnd : (l.map Prod.fst).Nodup)
    (hl : ∀ p x, (p, x) ∈ l → x.position = .data p ∧ x.fecSetIndex = f ∧ set.data p = none) :
    Placed f (set.installAll l) ∧ (set.installAll l).numData = set.numData + l.length := by
  induction l generalizing set with
  | nil => exact ⟨hP, rfl⟩
  | cons y l ih =>
    obtain ⟨q, y⟩ := y
    simp only [List.map_cons, List.nodup_cons] at hnd
    obtain ⟨hq, hf, hnew⟩ := hl q y (List.mem_cons_self ..)
    have hrest : ∀ p x, (p, x) ∈ l → x.position = .data p ∧ x.fecSetIndex = f ∧
        (set.install q y).data p = none := by
      intro p x hm
      obtain ⟨h1, h2, h3⟩ := hl p x (List.mem_cons_of_mem _ hm)
      have hpq : p ≠ q := fun he => hnd.1 (he ▸ List.mem_map.mpr ⟨(p, x), hm, rfl⟩)
      have hset : (set.install q y).data p = set.data p := Function.update_of_ne hpq _ _
      exact ⟨h1, h2, hset.trans h3⟩
    obtain ⟨hplaced, hcount⟩ := ih (hP.install hq hf hnew) hnd.2 hrest
    have hone : (set.install q y).numData = set.numData + 1 := rfl
    refine ⟨hplaced, ?_⟩
    rw [List.length_cons]
    exact hcount.trans (by omega)

theorem Placed.missing_length {f : ℕ} {set : FecSet} (hP : Placed f set) :
    set.missing.length + set.numData = 32 := by
  have hsplit := List.length_eq_length_filter_add (l := List.finRange 32) fun p => (set.data p).isNone
  have hdata : ((List.finRange 32).filter fun p => !(set.data p).isNone).length = occupied set.data := by
    have hnd : ((List.finRange 32).filter fun p => !(set.data p).isNone).Nodup :=
      (List.nodup_finRange 32).filter _
    rw [← List.toFinset_card_of_nodup hnd, occupied]
    congr 1
    ext p
    cases set.data p <;> simp
  rw [List.length_finRange, hdata] at hsplit
  rw [hP.num_data]
  exact hsplit.symm

/-! ### The whole of recover -/

/- One place of the input of the reconstruction. -/
def slotOf (shardLen : ℕ) (x : Option Shred) : Bytes × Bool :=
  match x with
  | some shred => (shred.erasureShard, true)
  | none => (List.replicate shardLen 0, false)

theorem shards_data (set : FecSet) (n : ℕ) (p : Fin 32) :
    (set.shards n)[(p : ℕ)]? = some (slotOf n (set.data p)) := by
  have hlen : (p : ℕ) < ((List.finRange 32).map set.data).length := by simp
  rw [shards, List.getElem?_map, List.getElem?_append_left hlen, List.getElem?_map]
  simp only [List.getElem?_eq_getElem (show (p : ℕ) < (List.finRange 32).length by simp),
    List.getElem_finRange, Option.map_some]
  rfl

theorem shards_length (set : FecSet) (n : ℕ) : (set.shards n).length = 64 := by simp [shards]

/- The data shards after the reconstruction, with their positions. -/
def reconstructed (shards : List (Bytes × Bool)) : List (Fin 32 × Bytes × Bool) :=
  (List.finRange 32).zip shards

variable {set : FecSet} {n : ℕ} {out : List (Bytes × Bool)}

theorem keeps_length (hk : Keeps (set.shards n) out) : out.length = 64 := by
  have h := congrArg List.length hk.flags
  simpa [shards_length] using h

theorem reconstructed_getElem {p : Fin 32} {shard : Bytes} {present : Bool}
    (h : (p, shard, present) ∈ reconstructed out) : out[(p : ℕ)]? = some (shard, present) := by
  obtain ⟨i, hi⟩ := List.mem_iff_getElem?.mp h
  obtain ⟨hp, hx⟩ := List.getElem?_zip_eq_some.mp hi
  obtain ⟨hlt, hget⟩ := List.getElem?_eq_some_iff.mp hp
  have hpi : i = (p : ℕ) := by
    rw [List.getElem_finRange] at hget
    exact congrArg Fin.val hget
  rw [← hpi, hx]

theorem reconstructed_flag (hk : Keeps (set.shards n) out) {p : Fin 32} {shard : Bytes} {present : Bool}
    (h : (p, shard, present) ∈ reconstructed out) : present = (set.data p).isSome := by
  have hflag := congrArg (fun l : List Bool => l[(p : ℕ)]?) hk.flags
  simp only [List.getElem?_map, reconstructed_getElem h, shards_data, Option.map_some,
    Option.some.injEq] at hflag
  rw [hflag]
  cases set.data p <;> rfl

theorem reconstructed_length (hk : Keeps (set.shards n) out) {p : Fin 32} {shard : Bytes}
    (h : (p, shard, false) ∈ reconstructed out) : shard.length = n := by
  have hlen := congrArg (fun l : List ℕ => l[(p : ℕ)]?) hk.lengths
  simp only [List.getElem?_map, reconstructed_getElem h, shards_data, Option.map_some,
    Option.some.injEq] at hlen
  have hmissing : set.data p = none := by
    have hflag := reconstructed_flag hk h
    simpa using hflag.symm
  rw [hlen, hmissing]
  simp [slotOf]

theorem reconstructed_missing (hk : Keeps (set.shards n) out) :
    ((reconstructed out).filter fun x => !x.2.2).map Prod.fst = set.missing := by
  have hcongr : (reconstructed out).filter (fun x => !x.2.2) =
      (reconstructed out).filter ((fun p => (set.data p).isNone) ∘ Prod.fst) := by
    apply List.filter_congr
    intro x hx
    obtain ⟨p, shard, present⟩ := x
    simp only [Function.comp, reconstructed_flag hk hx]
    cases set.data p <;> rfl
  have hfst : (reconstructed out).map Prod.fst = List.finRange 32 := by
    apply List.map_fst_zip
    rw [keeps_length hk, List.length_finRange]
    decide
  rw [hcongr, ← List.filter_map, hfst]
  rfl

theorem mem_reconstructed (hk : Keeps (set.shards n) out) (p : Fin 32) :
    ∃ shard, (p, shard, (set.data p).isSome) ∈ reconstructed out := by
  have hfst : (reconstructed out).map Prod.fst = List.finRange 32 := by
    apply List.map_fst_zip
    rw [keeps_length hk, List.length_finRange]
    decide
  have hp : p ∈ (reconstructed out).map Prod.fst := by
    rw [hfst]
    exact List.mem_finRange p
  obtain ⟨⟨q, shard, present⟩, hmem, rfl⟩ := List.mem_map.mp hp
  rw [reconstructed_flag hk hmem] at hmem
  exact ⟨shard, hmem⟩

theorem Placed.anyShred {f : ℕ} (hP : Placed f set) (hc : set.canRecover = true) :
    ∃ template q, set.anyShred = some template ∧ set.held q = some template ∧
      template.fecSetIndex = f := by
  have hpos : 0 < occupied set.code := by
    rw [← hP.num_code]
    simp only [canRecover, Bool.and_eq_true, decide_eq_true_eq] at hc
    exact hc.1.2
  obtain ⟨p, x, hx⟩ := occupied_pos hpos
  cases ht : set.anyShred with
  | none =>
    unfold FecSet.anyShred at ht
    rw [List.head?_eq_none_iff] at ht
    have hmem : x ∈ ((List.finRange 32).map set.code ++ (List.finRange 32).map set.data).reduceOption := by
      rw [List.reduceOption_mem_iff, List.mem_append]
      exact .inl (List.mem_map.mpr ⟨p, List.mem_finRange p, hx⟩)
    rw [ht] at hmem
    contradiction
  | some template =>
    have hmem := List.mem_of_head? ht
    rw [List.reduceOption_mem_iff, List.mem_append] at hmem
    rcases hmem with hmem | hmem
    · obtain ⟨q, _, hq⟩ := List.mem_map.mp hmem
      exact ⟨template, .code q, rfl, hq, (hP.code_at q template hq).2⟩
    · obtain ⟨q, _, hq⟩ := List.mem_map.mp hmem
      exact ⟨template, .data q, rfl, hq, (hP.data_at q template hq).2⟩

/-- `recover` never panics, and ends as its rebuilt shreds say. -/
theorem recover_eq {template : Shred} (rs : ReedSolomon) (ht : set.anyShred = some template) :
    set.recover rs = match rs.reconstructData (set.shards template.erasureShard.length) with
      | none => .ok (set, .error .reedSolomon)
      | some out => .ok (set.ending template.fecSetIndex []
          (rebuildAll set.signature template (reconstructed out))) := by
  simp only [recover, ht]
  cases hr : rs.reconstructData (set.shards template.erasureShard.length) with
  | none => rfl
  | some out =>
    have hk := rs.keeps _ _ hr
    exact recoverLoop_eq template _ (fun p shard hm => reconstructed_length hk hm) set []

/-- How a call of `recover` ends on any set: without a codeword, with what was rebuilt
before the first failure, or with all of it and without the code shreds. -/
inductive RecoverEnds (set : FecSet) (rs : ReedSolomon) : FecSet → Except RecoverError (List ℕ) → Prop where
  | undecoded (template : Shred) (ht : set.anyShred = some template)
      (hrec : rs.reconstructData (set.shards template.erasureShard.length) = none) :
      RecoverEnds set rs set (.error .reedSolomon)
  | stopped (template : Shred) (out : List (Bytes × Bool)) (l : List (Fin 32 × Shred)) (e : RecoverError)
      (ht : set.anyShred = some template)
      (hrec : rs.reconstructData (set.shards template.erasureShard.length) = some out)
      (hl : rebuildAll set.signature template (reconstructed out) = (l, some e)) :
      RecoverEnds set rs (set.installAll l) (.error e)
  | complete (template : Shred) (out : List (Bytes × Bool)) (l : List (Fin 32 × Shred))
      (ht : set.anyShred = some template)
      (hrec : rs.reconstructData (set.shards template.erasureShard.length) = some out)
      (hl : rebuildAll set.signature template (reconstructed out) = (l, none)) :
      RecoverEnds set rs (set.installAll l).dropCode (.ok (l.map fun x => template.fecSetIndex + x.1))

theorem recover_ends {rs : ReedSolomon} {set' : FecSet} {r : Except RecoverError (List ℕ)}
    (h : set.recover rs = .ok (set', r)) : RecoverEnds set rs set' r := by
  cases ht : set.anyShred with
  | none =>
    rw [recover, ht] at h
    contradiction
  | some template =>
    rw [recover_eq rs ht] at h
    cases hrec : rs.reconstructData (set.shards template.erasureShard.length) with
    | none =>
      rw [hrec] at h
      cases h
      exact .undecoded template ht hrec
    | some out =>
      rw [hrec] at h
      dsimp only at h
      cases hl : rebuildAll set.signature template (reconstructed out) with
      | mk l e =>
        rw [hl] at h
        cases e with
        | none =>
          cases h
          exact .complete template out l ht hrec hl
        | some e =>
          cases h
          exact .stopped template out l e ht hrec hl

/-- A shred held after recovery was held before, or was rebuilt from a reconstructed
shard. -/
theorem recover_held {f : ℕ} (hP : Placed f set) (hc : set.canRecover = true) {rs : ReedSolomon} {set' : FecSet}
    {r : Except RecoverError (List ℕ)} (h : set.recover rs = .ok (set', r)) {q : Position} {y : Shred}
    (hy : set'.held q = some y) : set.held q = some y ∨ ∃ template t p shard out,
      set.held t = some template ∧ rs.reconstructData (set.shards template.erasureShard.length) = some out ∧
      q = .data p ∧ (p, shard, false) ∈ reconstructed out ∧ rebuild set.signature template p shard = .ok y := by
  obtain ⟨template', t, ht', htq, _⟩ := hP.anyShred hc
  have hdata : ∀ {template out l e}, set.anyShred = some template →
      rs.reconstructData (set.shards template.erasureShard.length) = some out →
      rebuildAll set.signature template (reconstructed out) = (l, e) → ∀ {p}, (set.installAll l).data p = some y →
      set.data p = some y ∨ ∃ template t r shard out, set.held t = some template ∧
        rs.reconstructData (set.shards template.erasureShard.length) = some out ∧ Position.data p = .data r ∧
        (r, shard, false) ∈ reconstructed out ∧ rebuild set.signature template r shard = .ok y := by
    intro template out l e ht hrec hl p hp
    obtain rfl := Option.some.inj (ht.symm.trans ht')
    rcases installAll_from hp with hold | hnew
    · exact .inl hold
    · obtain ⟨shard, hin, hok⟩ := mem_rebuildAll (by rwa [hl])
      exact .inr ⟨template, t, p, shard, out, htq, hrec, rfl, hin, hok⟩
  cases recover_ends h with
  | undecoded template ht hrec => exact .inl hy
  | stopped template out l e ht hrec hl =>
    cases q with
    | data p => exact hdata ht hrec hl hy
    | code p =>
      simp only [held, (set.installAll_fields l).1] at hy
      exact .inl hy
  | complete template out l ht hrec hl =>
    cases q with
    | data p => exact hdata ht hrec hl hy
    | code p => contradiction

theorem rebuildAll_nodup {template : Shred} {n : ℕ} {out : List (Bytes × Bool)} (hk : Keeps (set.shards n) out) :
    ((rebuildAll set.signature template (reconstructed out)).1.map Prod.fst).Nodup := by
  obtain ⟨rest, hpos, _⟩ := rebuildAll_positions set.signature template (reconstructed out)
  rw [reconstructed_missing hk] at hpos
  have hall := set.missing_nodup
  rw [hpos] at hall
  exact (List.nodup_append.mp hall).1

/- What a recovery installed, `l`, and what it says about it. -/
structure Installs (f : ℕ) (set : FecSet) (l : List (Fin 32 × Shred)) : Prop where
  nodup : (l.map Prod.fst).Nodup
  missing : ∀ p x, (p, x) ∈ l → set.data p = none
  placed : ∀ p x, (p, x) ∈ l → x.position = .data p ∧ x.fecSetIndex = f

inductive Recovered (f : ℕ) (set : FecSet) : FecSet → Except RecoverError (List ℕ) → Prop where
  | failed (l : List (Fin 32 × Shred)) (e : RecoverError) (hl : Installs f set l)
      (hshort : l.length < set.missing.length) : Recovered f set (set.installAll l) (.error e)
  | complete (l : List (Fin 32 × Shred)) (hl : Installs f set l) (hall : l.map Prod.fst = set.missing) :
      Recovered f set (set.installAll l).dropCode (.ok (set.missing.map fun p : Fin 32 => f + (p : ℕ)))

theorem Inv.missing_ne_nil {f : ℕ} (hI : Inv f set) (hc : set.canRecover = true) :
    0 < set.missing.length := by
  have hm := hI.toPlaced.missing_length
  have hle := occupied_le set.data
  rw [← hI.num_data] at hle
  have hnum : set.numData ≠ 32 := by
    intro he
    simp [canRecover, isComplete, he, dataShredsPerFecSet] at hc
  omega

theorem recover_cases {f : ℕ} (hI : Inv f set) (hc : set.canRecover = true) (rs : ReedSolomon) :
    ∃ set' r, set.recover rs = .ok (set', r) ∧ Recovered f set set' r := by
  obtain ⟨template, q, ht, hq, hf⟩ := hI.toPlaced.anyShred hc
  rw [recover_eq rs ht]
  cases hr : rs.reconstructData (set.shards template.erasureShard.length) with
  | none =>
    exact ⟨_, _, rfl, .failed [] .reedSolomon ⟨by simp, by simp, by simp⟩ (hI.missing_ne_nil hc)⟩
  | some out =>
    have hk := rs.keeps _ _ hr
    obtain ⟨rest, hpos, hend⟩ := rebuildAll_positions set.signature template (reconstructed out)
    rw [reconstructed_missing hk] at hpos
    have hl : Installs f set (rebuildAll set.signature template (reconstructed out)).1 := by
      refine ⟨?_, ?_, ?_⟩
      · exact rebuildAll_nodup hk
      · intro p x hm
        rw [← mem_missing, hpos]
        exact List.mem_append_left _ (List.mem_map.mpr ⟨(p, x), hm, rfl⟩)
      · intro p x hm
        obtain ⟨shard, _, hok⟩ := mem_rebuildAll hm
        have hb := rebuild_ok hok
        exact ⟨hb.position, hb.fecSetIndex.trans hf⟩
    have hlen := congrArg List.length hpos
    simp only [List.length_append, List.length_map] at hlen
    dsimp only
    generalize rebuildAll set.signature template (reconstructed out) = res at hl hpos hend hlen ⊢
    obtain ⟨l, _ | e⟩ := res
    · have hall : l.map Prod.fst = set.missing := by
        rw [hpos, hend.mp rfl, List.append_nil]
      have hmap : ([] : List ℕ) ++ l.map (fun x => template.fecSetIndex + (x.1 : ℕ)) =
          set.missing.map fun p : Fin 32 => f + (p : ℕ) := by
        rw [← hall, List.map_map, hf]
        rfl
      refine ⟨_, _, rfl, ?_⟩
      simp only [hmap]
      exact .complete l hl hall
    · have hne : rest ≠ [] := fun hn => by simp [hn] at hend
      have hpos := List.length_pos_iff.mpr hne
      exact ⟨_, _, rfl, .failed l e hl (by simp only at hlen; omega)⟩

theorem Recovered.inv {f : ℕ} {set' : FecSet} {r : Except RecoverError (List ℕ)} (hI : Inv f set)
    (h : Recovered f set set' r) : Inv f set' := by
  have hm := hI.toPlaced.missing_length
  cases h with
  | failed l e hl hshort =>
    have hp := hI.toPlaced.installAll hl.nodup fun p x hx =>
      ⟨(hl.placed p x hx).1, (hl.placed p x hx).2, hl.missing p x hx⟩
    refine ⟨hp.1, ?_⟩
    intro hcomp
    simp only [isComplete, hp.2, dataShredsPerFecSet, decide_eq_true_eq] at hcomp
    omega
  | complete l hl hall =>
    have hp := (hI.toPlaced.installAll hl.nodup fun p x hx =>
      ⟨(hl.placed p x hx).1, (hl.placed p x hx).2, hl.missing p x hx⟩).1
    refine ⟨⟨hp.data_at, by simp [dropCode], hp.num_data, ?_⟩, fun _ p => rfl⟩
    simp [dropCode, occupied]

theorem Recovered.keeps {f : ℕ} {set' : FecSet} {r : Except RecoverError (List ℕ)}
    (h : Recovered f set set' r) {p : Fin 32} {x : Shred} (hx : set.data p = some x) :
    set'.data p = some x := by
  have hout : ∀ l, Installs f set l → p ∉ l.map Prod.fst := by
    intro l hl hmem
    obtain ⟨⟨q, y⟩, hy, rfl⟩ := List.mem_map.mp hmem
    have hnone := hl.missing q y hy
    rw [hx] at hnone
    contradiction
  cases h with
  | failed l e hl hshort => rw [installAll_keeps (hout l hl), hx]
  | complete l hl hall =>
    simp only [dropCode]
    rw [installAll_keeps (hout l hl), hx]

theorem Recovered.root_signature {f : ℕ} {set' : FecSet} {r : Except RecoverError (List ℕ)}
    (h : Recovered f set set' r) : set'.root = set.root ∧ set'.signature = set.signature := by
  cases h with
  | failed l e hl hshort => exact (set.installAll_fields l).2.2
  | complete l hl hall => exact (set.installAll_fields l).2.2

theorem Recovered.ok {f : ℕ} {set' : FecSet} {is : List ℕ} (h : Recovered f set set' (.ok is)) :
    is = set.missing.map (fun p : Fin 32 => f + (p : ℕ)) ∧ (∀ p, (set'.data p).isSome) ∧ ∀ p, set'.code p = none := by
  cases h with
  | complete l hl hall =>
    refine ⟨rfl, ?_, fun p => rfl⟩
    intro p
    simp only [dropCode]
    by_cases hp : p ∈ l.map Prod.fst
    · obtain ⟨⟨q, y⟩, hy, rfl⟩ := List.mem_map.mp hp
      simp [installAll_data hl.nodup hy]
    · rw [installAll_keeps hp]
      rw [hall, mem_missing] at hp
      exact Option.isSome_iff_ne_none.mpr hp

end FecSet
end Deshred
