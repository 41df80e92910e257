import Deshred.Layout

/-!
# The representation of a FEC set

`insert`, `recover` and `drop_code` update counters, arrays, root and signature
separately. `Represents` is what holds of all of them between two calls, also after a
recovery that stopped halfway.
-/

namespace Deshred

namespace FecSet

/-! ### Root and signature -/

theorem Rebuilt.signature_eq {signature : Signature} {template : Shred} {p : Fin 32} {shard : Bytes} {y : Shred}
    (h : Rebuilt signature template p shard y) : y.signature = signature := by
  have hbytes := (Shred.bytes_of_parse h.parsed).1
  have hwire := wireSize_ge y.kind
  have hs := signature.property
  apply Subtype.ext
  simp only [Shred.signature, slice, signatureSize, List.drop_zero, Nat.sub_zero]
  rw [hbytes, List.take_take, Nat.min_eq_left (by omega), rebuiltBytes]
  simp only [List.append_assoc]
  rw [List.take_left' hs]

variable {set set' : FecSet} {rs : ReedSolomon} {r : Except RecoverError (List ℕ)}

theorem recover_root_signature (hok : set.recover rs = .ok (set', r)) :
    set'.root = set.root ∧ set'.signature = set.signature := by
  cases recover_ends hok with
  | undecoded template ht hrec => exact ⟨rfl, rfl⟩
  | stopped template out l e ht hrec hl => exact (set.installAll_fields l).2.2
  | complete template out l ht hrec hl => exact (set.installAll_fields l).2.2

variable [Hasher]

/-- One call on a set. -/
inductive Call : FecSet → FecSet → Prop where
  | insert (set : FecSet) (x : Shred) : Call set (set.insert x).1
  | recover {set set' : FecSet} {r : Except RecoverError (List ℕ)} (rs : ReedSolomon)
      (hc : set.canRecover = true) (hok : set.recover rs = .ok (set', r)) : Call set set'

theorem Call.keeps_root (h : Call set set') {root : Hash32} (hroot : set.root = some root) :
    set'.root = some root ∧ set'.signature = set.signature := by
  cases h with
  | insert x =>
    obtain ⟨root', hacc, he⟩ | ⟨why, _, he, _⟩ := set.insert_cases x
    · rw [he, accepted_root, accepted_signature]
      rcases hacc.agrees with hnone | hknown
      · rw [hroot] at hnone
        contradiction
      · exact ⟨hknown.1.symm.trans hroot, hknown.2.symm⟩
    · rw [he]
      exact ⟨hroot, rfl⟩
  | recover rs hc hok =>
    obtain ⟨h1, h2⟩ := recover_root_signature hok
    exact ⟨h1.trans hroot, h2⟩

theorem calls_keep_root (h : Relation.ReflTransGen Call set set') {root : Hash32} (hroot : set.root = some root) :
    set'.root = some root ∧ set'.signature = set.signature := by
  induction h with
  | refl => exact ⟨hroot, rfl⟩
  | tail _ hcall ih =>
    obtain ⟨h1, h2⟩ := hcall.keeps_root ih.1
    exact ⟨h1, h2.trans ih.2⟩

/-! ### Whose shreds a set holds -/

/- Everything held or taken in is signed as the set is, and what was taken in leads to
its root. -/
structure Signed (received : List Shred) (set : FecSet) : Prop where
  held : ∀ q x, set.held q = some x → x.signature = set.signature ∧ set.root ≠ none
  received : ∀ x ∈ received, ∃ root, set.root = some root ∧ x.merkleRoot = some root

theorem Signed.empty : Signed [] FecSet.empty where
  held q x hx := by cases q <;> simp [FecSet.held, FecSet.empty] at hx
  received := by simp

theorem Signed.accepted {received : List Shred} (h : Signed received set) {x : Shred} {root : Hash32}
    (hacc : Accepts set x root) : Signed (received ++ [x]) (set.accepted x root) where
  held q y hy := by
    rw [accepted_root, accepted_signature]
    refine ⟨?_, by simp⟩
    rcases accepted_held hacc.needed hy with hold | ⟨_, rfl⟩
    · obtain ⟨hsig, hroot⟩ := h.held q y hold
      -- a set that holds a shred has a root, so the new signature is the old one
      rcases hacc.agrees with hnone | hknown
      · exact absurd hnone hroot
      · exact hsig.trans hknown.2
    · rfl
  received y hy := by
    rw [accepted_root]
    refine ⟨root, rfl, ?_⟩
    rcases List.mem_append.mp hy with hold | hnew
    · obtain ⟨root', hroot', hy'⟩ := h.received y hold
      rcases hacc.agrees with hnone | hknown
      · rw [hroot'] at hnone
        contradiction
      · rw [hy', ← hroot', hknown.1]
    · rw [List.mem_singleton.mp hnew]
      exact hacc.proof

theorem Signed.recovered {received : List Shred} {f : ℕ} (h : Signed received set) (hP : Placed f set)
    (hc : set.canRecover = true) (hok : set.recover rs = .ok (set', r)) : Signed received set' := by
  obtain ⟨hroot, hsig⟩ := recover_root_signature hok
  refine ⟨fun q y hy => ?_, by rw [hroot]; exact h.received⟩
  rw [hroot, hsig]
  rcases recover_held hP hc hok hy with hold | ⟨template, t, p, shard, out, ht, _, _, _, hre⟩
  · exact h.held q y hold
  · exact ⟨(rebuild_ok hre).signature_eq, (h.held t template ht).2⟩

theorem Reached.inv {received : List Shred} {f : ℕ} (h : Reached received set)
    (hset : ∀ x ∈ received, x.fecSetIndex = f) : Inv f set := by
  induction h with
  | empty => exact Inv.empty f
  | @taken received set x _ hnew ih =>
    obtain ⟨root, hacc⟩ := (set.insert_new_iff x).mp hnew
    rw [insert_of_accepts hacc]
    exact (ih fun y hy => hset y (List.mem_append_left _ hy)).accepted (hset x (by simp)) hacc
  | refused x _ hold ih =>
    rw [insert_unchanged hold]
    exact ih hset
  | @recovered received set set' r rs _ hc hok ih =>
    obtain ⟨set'', r', hok', hr⟩ := recover_cases (ih hset) hc rs
    obtain ⟨rfl, rfl⟩ := Prod.mk.inj (Except.ok.inj (hok.symm.trans hok'))
    exact hr.inv (ih hset)

theorem Reached.signed {received : List Shred} {f : ℕ} (h : Reached received set)
    (hset : ∀ x ∈ received, x.fecSetIndex = f) : Signed received set := by
  induction h with
  | empty => exact Signed.empty
  | @taken received set x _ hnew ih =>
    obtain ⟨root, hacc⟩ := (set.insert_new_iff x).mp hnew
    rw [insert_of_accepts hacc]
    exact (ih fun y hy => hset y (List.mem_append_left _ hy)).accepted hacc
  | refused x _ hold ih =>
    rw [insert_unchanged hold]
    exact ih hset
  | recovered rs h hc hok ih => exact (ih hset).recovered (h.inv hset).toPlaced hc hok

/-! ### Enough shards -/

omit [Hasher] in
theorem rebuildAll_error {signature : Signature} {template : Shred} {items : List (Fin 32 × Bytes × Bool)} :
    (rebuildAll signature template items).2 ≠ some .reedSolomon := by
  induction items with
  | nil => simp [rebuildAll]
  | cons item items ih =>
    obtain ⟨p, shard, present⟩ := item
    cases present with
    | true => exact ih
    | false =>
      cases hre : rebuild signature template p shard with
      | ok x => simpa only [rebuildAll, hre] using ih
      | error e =>
        simp only [rebuildAll, hre, ne_eq, Option.some.injEq]
        rintro rfl
        unfold rebuild recoveredShred at hre
        split at hre
        · cases hre
        · dsimp only at hre
          split at hre
          · cases hre
          · contradiction

omit [Hasher] in
theorem Inv.enough {f : ℕ} (hI : Inv f set) (hc : set.canRecover = true) :
    dataShredsPerFecSet ≤ occupied set.data + occupied set.code := by
  rw [← hI.num_data, ← hI.num_code]
  simp only [canRecover, Bool.and_eq_true, decide_eq_true_eq] at hc
  exact hc.2

/-- `recover` hands these shards to the decoder, 64 of which 32 are present at least, and
ends in the decoder's error only when the decoder fails on them. -/
structure HandsEnough (set : FecSet) (rs : ReedSolomon) (shards : List (Bytes × Bool)) : Prop where
  length : shards.length = 2 * dataShredsPerFecSet
  present : dataShredsPerFecSet ≤ shards.countP Prod.snd
  returns : ∃ set' r, set.recover rs = .ok (set', r) ∧
    (r = .error .reedSolomon ↔ rs.reconstructData shards = none)

omit [Hasher] in
theorem Inv.handsEnough {f : ℕ} (hI : Inv f set) (hc : set.canRecover = true) :
    ∃ template, set.anyShred = some template ∧ ∀ rs, HandsEnough set rs (set.shards template.erasureShard.length) := by
  obtain ⟨template, _, ht, _, _⟩ := hI.toPlaced.anyShred hc
  refine ⟨template, ht, fun rs => ⟨set.shards_length _, ?_, ?_⟩⟩
  · rw [LeaderSet.shards_count]
    exact hI.enough hc
  · obtain ⟨set', r, hok, _⟩ := recover_cases hI hc rs
    refine ⟨set', r, hok, ?_⟩
    cases recover_ends hok with
    | undecoded t ht' hrec =>
      obtain rfl := Option.some.inj (ht.symm.trans ht')
      exact iff_of_true rfl hrec
    | stopped t out l e ht' hrec hl =>
      obtain rfl := Option.some.inj (ht.symm.trans ht')
      have hne := @rebuildAll_error set.signature template (reconstructed out)
      rw [hl] at hne
      rw [hrec]
      exact iff_of_false (fun he => hne (congrArg some (Except.error.inj he))) (by simp)
    | complete t out l ht' hrec hl =>
      obtain rfl := Option.some.inj (ht.symm.trans ht')
      rw [hrec]
      exact iff_of_false (by simp) (by simp)

/-! ### Between two calls -/

structure Represents (received : List Shred) (set : FecSet) : Prop where
  numData : set.numData = occupied set.data
  numCode : set.numCode = occupied set.code
  complete : set.isComplete = true → ∀ p, set.code p = none
  data_index : ∀ p x, set.data p = some x → x.kind = .data ∧ x.erasureShardIndex = p
  code_index : ∀ p x, set.code p = some x → x.kind = .code ∧ x.erasureShardIndex = dataShredsPerFecSet + p
  signature : ∀ q x, set.held q = some x → x.signature = set.signature
  root : ∀ q x, set.held q = some x → x ∈ received → ∃ root, set.root = some root ∧ x.merkleRoot = some root
  enough : set.canRecover = true → dataShredsPerFecSet ≤ occupied set.data + occupied set.code

/-- What holds of a set between any two calls: it represents what it received, its root
and signature stay, and recovery has enough shards. -/
theorem reached_represents {received : List Shred} {f : ℕ} (h : Reached received set)
    (hset : ∀ x ∈ received, x.fecSetIndex = f) :
    Represents received set ∧
    (∀ root later, set.root = some root → Relation.ReflTransGen Call set later →
      later.root = some root ∧ later.signature = set.signature) ∧
    (set.canRecover = true → ∃ template, set.anyShred = some template ∧
      ∀ rs, HandsEnough set rs (set.shards template.erasureShard.length)) := by
  have hI := h.inv hset
  have hsigned := h.signed hset
  refine ⟨?_, fun root later hroot hcalls => calls_keep_root hcalls hroot, hI.handsEnough⟩
  constructor
  case numData => exact hI.num_data
  case numCode => exact hI.num_code
  case complete => exact hI.complete
  case data_index =>
    intro p x hx
    have hpos := x.position_data (hI.data_at p x hx).1
    exact ⟨hpos.1, hpos.2.2.2⟩
  case code_index =>
    intro p x hx
    exact x.position_code (hI.code_at p x hx).1
  case signature => exact fun q x hx => (hsigned.held q x hx).1
  case root => exact fun q x _ hx => hsigned.received x hx
  case enough => exact hI.enough

end FecSet

theorem tail_fecSetIndex [Hasher] (hs : 9 < 2 ^ 64) (x : Shred) (hx : x ∈ tailOrder.map (lineSet 9 hs).shred) :
    x.fecSetIndex = 0 := by
  obtain ⟨q, _, rfl⟩ := List.mem_map.mp hx
  exact (SetDraft.sealedSet_fields _ q).2.2.1

/-- The set of 31 data shreds and a code shred, which recovery can complete. -/
theorem reached_represents_tail :
    let S := @lineSet sha256Hasher 9 (by decide)
    ∃ set, @FecSet.Reached sha256Hasher (tailOrder.map S.shred) set ∧ set.canRecover = true ∧
      @FecSet.Represents sha256Hasher (tailOrder.map S.shred) set ∧
      ∃ template, set.anyShred = some template ∧ ∀ rs, set.HandsEnough rs (set.shards template.erasureShard.length) := by
  intro S
  obtain ⟨root, set, hreached, hcan, _, _⟩ := @tail_reached sha256Hasher (by decide)
  have hset := @tail_fecSetIndex sha256Hasher (by decide)
  obtain ⟨hrep, _, henough⟩ := @FecSet.reached_represents _ sha256Hasher _ 0 hreached hset
  exact ⟨set, hreached, hcan, hrep, henough hcan⟩

end Deshred
