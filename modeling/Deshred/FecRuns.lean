import Deshred.Stranded

/-!
# FEC sets under any sequence of calls

`Reached` are the sets that `insert` and `recover` lead to, whatever shreds arrive and
whatever the reconstruction returns.
-/

namespace Deshred

namespace FecSet
variable [Hasher]

/-- The sets calls lead to; `received` are the shreds that were taken in, in order.
`recover` is only called where `can_recover` holds, as its assertion asks. -/
inductive Reached : List Shred → FecSet → Prop where
  | empty : Reached [] FecSet.empty
  | taken {received : List Shred} {set : FecSet} (x : Shred) (h : Reached received set)
      (hnew : (set.insert x).2 = .new) : Reached (received ++ [x]) (set.insert x).1
  | refused {received : List Shred} {set : FecSet} (x : Shred) (h : Reached received set)
      (hold : (set.insert x).2 ≠ .new) : Reached received (set.insert x).1
  | recovered {received : List Shred} {set set' : FecSet} {r : Except RecoverError (List ℕ)} (rs : ReedSolomon)
      (h : Reached received set) (hc : set.canRecover = true) (hok : set.recover rs = .ok (set', r)) :
      Reached received set'

/- Any number of `insert` calls. -/
def insertAll (set : FecSet) (shreds : List Shred) : FecSet :=
  shreds.foldl (fun set x => (set.insert x).1) set

theorem insertAll_snoc (set : FecSet) (shreds : List Shred) (x : Shred) :
    set.insertAll (shreds ++ [x]) = ((set.insertAll shreds).insert x).1 := by
  simp [insertAll]

/-! ### A recovery that fails -/

omit [Hasher] in
theorem installAll_numData (set : FecSet) (l : List (Fin 32 × Shred)) :
    (set.installAll l).numData = set.numData + l.length := by
  induction l generalizing set with
  | nil => rfl
  | cons x l ih =>
    have hone : (set.install x.1 x.2).numData = set.numData + 1 := rfl
    have hrest := ih (set.install x.1 x.2)
    rw [hone] at hrest
    rw [List.length_cons]
    exact hrest.trans (by omega)

/-- An error leaves arrays, counters, root and signature as they were. -/
def FailsCleanly (set : FecSet) (rs : ReedSolomon) : Prop :=
  ∀ set' e, set.recover rs = .ok (set', .error e) → set' = set

omit [Hasher] in
theorem FailsCleanly.allOrNothing {set : FecSet} {rs : ReedSolomon} (h : set.FailsCleanly rs) {template : Shred}
    {shards : List (Bytes × Bool)} (ht : set.anyShred = some template)
    (hrec : rs.reconstructData (set.shards template.erasureShard.length) = some shards) :
    AllOrNothing set.signature template shards := by
  have hrun := recover_eq rs ht
  rw [hrec] at hrun
  rw [allOrNothing_iff]
  dsimp only at hrun
  generalize rebuildAll set.signature template (reconstructed shards) = res at hrun ⊢
  obtain ⟨l, _ | e⟩ := res
  · exact .inl rfl
  · -- every shred installed was counted
    have hsame := h _ _ hrun
    have hnum := set.installAll_numData l
    rw [hsame] at hnum
    have hlen : l.length = 0 := by omega
    exact .inr (List.length_eq_zero_iff.mp hlen)

omit [Hasher] in
theorem AllOrNothing.keeps {set set' : FecSet} {rs : ReedSolomon} {template : Shred} {shards : List (Bytes × Bool)}
    {e : RecoverError} (h : AllOrNothing set.signature template shards) (ht : set.anyShred = some template)
    (hrec : rs.reconstructData (set.shards template.erasureShard.length) = some shards)
    (hrun : set.recover rs = .ok (set', .error e)) : set' = set := by
  have hall := allOrNothing_iff.mp h
  cases recover_ends hrun with
  | undecoded t ht' hnone => rfl
  | stopped t out l e ht' hrec' hl =>
    obtain rfl := Option.some.inj (ht.symm.trans ht')
    obtain rfl := Option.some.inj (hrec.symm.trans hrec')
    have hnil : l = [] := by simpa [hl] using hall
    rw [hnil]
    rfl

omit [Hasher] in
/-- An error leaves no trace exactly when the first missing shard already fails, if one
of them does. -/
theorem failsCleanly_iff (set : FecSet) (rs : ReedSolomon) :
    set.FailsCleanly rs ↔ ∀ template shards, set.anyShred = some template →
      rs.reconstructData (set.shards template.erasureShard.length) = some shards →
      AllOrNothing set.signature template shards := by
  constructor
  · exact fun h template shards ht hrec => h.allOrNothing ht hrec
  · intro h set' e hrun
    cases recover_ends hrun with
    | undecoded template ht hrec => rfl
    | stopped template out l e ht hrec hl => exact (h template out ht hrec).keeps ht hrec hrun

end FecSet

/-! ### A leader's set, shred by shred -/

namespace LeaderSet
open FecSet
variable [Hasher] {S : LeaderSet} {f : ℕ} {root : Hash32} {signature : Signature} {A : Finset Position}
  {set : FecSet} {q : Position}

/- What `insert` makes of the shreds at the places `A`. -/
structure Arrived (S : LeaderSet) (f : ℕ) (root : Hash32) (signature : Signature) (A : Finset Position)
    (set : FecSet) : Prop where
  inv : Inv f set
  waiting : ∀ p, .data p ∉ A → S.Holding root signature A set
  full : (∀ p, .data p ∈ A) → set.isComplete = true

omit [Hasher] in
theorem Arrived.empty : S.Arrived f root signature ∅ FecSet.empty where
  inv := Inv.empty f
  waiting _ _ := Holding.empty
  full h := absurd (h 0) (by simp)

theorem Arrived.accepts (h : S.Arrived f root signature A set) (hS : S.Sealed f root signature q) (hq : q ∉ A)
    {p : Fin 32} (hp : .data p ∉ A) : Accepts set (S.shred q) root :=
  (h.waiting p hp).accepts hS hq ((h.waiting p hp).not_complete h.inv hp)

theorem Arrived.insert (h : S.Arrived f root signature A set) (hS : S.Sealed f root signature q) (hq : q ∉ A) :
    S.Arrived f root signature (Insert.insert q A) (set.insert (S.shred q)).1 := by
  by_cases hall : ∀ p, .data p ∈ A
  · have hcomp := h.full hall
    have hcode : (S.shred q).kind = .code := by
      cases q with
      | data p => exact absurd (hall p) hq
      | code p => exact (Shred.position_code _ hS.position).1
    have hunneeded : (set.insert (S.shred q)).1 = set := by
      rw [FecSet.insert, if_pos ⟨hcode, hcomp⟩]
    rw [hunneeded]
    exact ⟨h.inv, fun p hp => absurd (Finset.mem_insert_of_mem (hall p)) hp, fun _ => hcomp⟩
  · obtain ⟨p, hp⟩ := not_forall.mp hall
    have hacc := h.accepts hS hq hp
    have hI := h.inv.accepted hS.fecSetIndex hacc
    rw [insert_of_accepts hacc]
    refine ⟨hI, fun r hr => (h.waiting p hp).accepted hS h.inv hq hr, fun hfull => ?_⟩
    apply hI.toPlaced.isComplete_iff.mpr
    intro r
    rw [(h.waiting p hp).accepted_data hS hacc (hfull r)]
    rfl

theorem arrived_insertAll (hS : ∀ q, S.Sealed f root signature q) {order : List Position} (hnd : order.Nodup) :
    S.Arrived f root signature order.toFinset (FecSet.empty.insertAll (order.map S.shred)) := by
  induction order using List.reverseRecOn with
  | nil => exact Arrived.empty
  | append_singleton order q ih =>
    obtain ⟨hndo, hq⟩ := nodup_before hnd
    have hins : (order ++ [q]).toFinset = Insert.insert q order.toFinset := by
      rw [List.toFinset_append, List.toFinset_cons, List.toFinset_nil, Finset.union_insert, Finset.union_empty]
    rw [List.map_append, hins]
    exact insertAll_snoc _ _ _ ▸ (ih hndo).insert (hS q) hq

/-- All of them are taken in as long as a data shred is missing. -/
theorem reached_insertAll (hS : ∀ q, S.Sealed f root signature q) {order : List Position} (hnd : order.Nodup)
    {p : Fin 32} (hp : .data p ∉ order) :
    Reached (order.map S.shred) (FecSet.empty.insertAll (order.map S.shred)) := by
  induction order using List.reverseRecOn with
  | nil => exact Reached.empty
  | append_singleton order q ih =>
    obtain ⟨hndo, hq⟩ := nodup_before hnd
    have hpo : .data p ∉ order := fun hmem => hp (List.mem_append_left _ hmem)
    have hacc := (arrived_insertAll hS hndo).accepts (hS q) hq (p := p) (by rwa [List.mem_toFinset])
    rw [List.map_append]
    exact insertAll_snoc _ _ _ ▸ .taken _ (ih hndo hpo) (by rw [insert_of_accepts hacc])

end LeaderSet

/-- 30 data shreds and 2 code shreds: the error leaves data shred 0 in the set. -/
theorem mixedSet_not_as_before :
    let S := @mixedSet sha256Hasher
    ∃ received set, @FecSet.Reached sha256Hasher received set ∧ set.canRecover = true ∧
      received = (mixedOrder ++ [Position.code 1]).map S.shred ∧
      ∃ set' e, set.recover (ReedSolomon.table (lineCodeword 9 id)) = .ok (set', .error e) ∧ set' ≠ set := by
  intro S
  have hS := @SetDraft.sealedSet_sealed _ sha256Hasher mixedDraft_valid
  have hnd : (mixedOrder ++ [Position.code 1]).Nodup := by decide
  have h0 : Position.data 0 ∉ mixedOrder ++ [Position.code 1] := by decide
  have harr := @LeaderSet.arrived_insertAll sha256Hasher S _ _ _ hS _ hnd
  have hplaces : (mixedOrder ++ [Position.code 1]).toFinset = insert (.code 1) mixedOrder.toFinset := by decide
  rw [hplaces] at harr
  obtain ⟨hcan, out, ht, hrec, hno⟩ := @mixedSet_half sha256Hasher _ harr.inv (harr.waiting 0 (by decide))
  have hunclean := mt (fun h : FecSet.FailsCleanly _ _ => h.allOrNothing ht hrec) hno
  simp only [FecSet.FailsCleanly, not_forall] at hunclean
  obtain ⟨set', e, hok, hne⟩ := hunclean
  exact ⟨_, _, @LeaderSet.reached_insertAll sha256Hasher S _ _ _ hS _ hnd 0 h0, hcan, rfl, set', e, hok, hne⟩

/-! ### What recovery brings back -/

namespace Shred

/-- `y` is `x` except for the bytes of the Merkle proof. -/
structure SameButProof (x y : Shred) : Prop where
  length : y.bytes.length = x.bytes.length
  bytes : ∀ i, i < x.proofOffset ∨ x.proofEnd ≤ i → y.bytes[i]? = x.bytes[i]?
  slot : y.slot = x.slot
  index : y.index = x.index
  version : y.version = x.version
  flags : y.flags = x.flags
  data : y.data = x.data
  chainedMerkleRoot : y.chainedMerkleRoot = x.chainedMerkleRoot
  lastInSlot : y.lastInSlot = x.lastInSlot

theorem SameButProof.refl (x : Shred) : SameButProof x x :=
  ⟨rfl, fun _ _ => rfl, rfl, rfl, rfl, rfl, rfl, rfl, rfl⟩

theorem getElem?_replace_mid {a m m' c : Bytes} (hlen : m'.length = m.length) {i : ℕ}
    (hi : i < a.length ∨ a.length + m.length ≤ i) : (a ++ m' ++ c)[i]? = (a ++ m ++ c)[i]? := by
  rcases hi with hi | hi
  · rw [List.append_assoc, List.append_assoc, List.getElem?_append_left hi, List.getElem?_append_left hi]
  · have h1 : (a ++ m').length ≤ i := by
      rw [List.length_append]
      omega
    have h2 : (a ++ m).length ≤ i := by
      rw [List.length_append]
      omega
    rw [List.getElem?_append_right h1, List.getElem?_append_right h2, List.length_append, List.length_append, hlen]

variable {x y : Shred}

theorem sameButProof_of_rebuilt {template : Shred} (hk : x.kind = .data)
    (hchain : x.chainedMerkleRoot = template.chainedMerkleRoot)
    (hret : x.retransmitterSignature = template.retransmitterSignature) (hps : x.proofSize = template.proofSize)
    (hy : parse (FecSet.rebuiltBytes x.signature template x.erasureShard) = .ok y) : SameButProof x y := by
  have hparts := data_parts hk
  obtain ⟨z, hz, htwin⟩ := rebuiltBytes_twin hk hchain hret hps
  obtain rfl : y = z := Except.ok.inj (hy.symm.trans hz)
  rw [hchain, hret] at hparts
  have hlen := rebuiltBytes_length hk hchain hret hps
  have hwire : wireSize y.kind = x.bytes.length := by rw [htwin.kind, x.bytes_length]
  have hbytes : y.bytes = FecSet.rebuiltBytes x.signature template x.erasureShard := by
    rw [(bytes_of_parse hy).1, List.take_of_length_le (by omega)]
  have hel : x.erasureShard.length = 24 + x.capacity := by
    have hl := x.layout
    rw [erasureShard, slice_length]
    simp only [erasureStart, erasureEnd, hk, headersSize, dataHeadersSize, signatureSize]
    omega
  have hoff : (x.signature.val ++ x.erasureShard ++ template.chainedMerkleRoot).length = x.proofOffset := by
    have hs := x.signature.property
    have hc := template.chainedMerkleRoot_length
    simp only [List.length_append, hs, hc, hel, proofOffset, hk, headersSize, dataHeadersSize, merkleRootSize]
    omega
  have hend : x.proofEnd = x.proofOffset + x.merkleProof.length := by rw [merkleProof_length, proofEnd]
  have houtside : ∀ i, i < x.proofOffset ∨ x.proofEnd ≤ i → y.bytes[i]? = x.bytes[i]? := by
    intro i hi
    rw [← hoff] at hi hend
    rw [hbytes, hparts]
    refine getElem?_replace_mid ?_ ?_
    · rw [List.length_replicate, merkleProof_length, hps, Merkle.proofEntrySize, Nat.mul_comm]
    · rw [← hend]
      exact hi
  have hy_off : y.proofOffset = x.proofOffset := by
    have hcap : y.capacity = x.capacity := (congrArg ShredFields.capacity htwin.fields).trans rfl
    simp only [proofOffset, htwin.kind, hcap]
  refine ⟨by rw [hbytes, hlen], houtside, htwin.slot, htwin.index, htwin.version, ?_, htwin.data, ?_,
    htwin.lastInSlot⟩
  · simp only [flags, htwin.header]
  · have htake : y.bytes.take x.proofOffset = x.bytes.take x.proofOffset := by
      apply List.ext_getElem?
      intro i
      rw [List.getElem?_take, List.getElem?_take]
      split
      · rename_i hi
        exact houtside i (.inl hi)
      · rfl
    have hb := x.leaf_in_bounds.2
    have hby := y.leaf_in_bounds.2
    simp only [chainedMerkleRoot, hy_off]
    exact slice_congr htake le_rfl _ _

end Shred

namespace LeaderSet
open FecSet
variable [Hasher] {S : LeaderSet} {Codeword : List Bytes → Prop} {slot version f : ℕ} {root : Hash32}
  {A : Finset Position} {set set' : FecSet} {r : Except RecoverError (List ℕ)}

theorem Holding.recover_same (hS : S.Consistent Codeword slot version f)
    (h : S.Holding root (S.data 0).signature A set) (hI : Inv f set) {rs : ReedSolomon} (hrs : rs.Rebuilds Codeword)
    (hc : set.canRecover = true) (hok : set.recover rs = .ok (set', r)) {p : Fin 32} {y : Shred}
    (hy : set'.data p = some y) : (S.data p).SameButProof y := by
  rcases recover_held hI.toPlaced hc hok (q := .data p) hy with hold | ⟨template, t, p', shard, out, ht, hrec, hp, hin, hre⟩
  · rw [h.held] at hold
    split at hold
    · rw [← Option.some.inj hold]
      exact Shred.SameButProof.refl _
    · contradiction
  · obtain rfl : p = p' := Position.data.inj hp
    rw [h.held] at ht
    split at ht
    · rename_i hmem
      obtain rfl : S.shred t = template := Option.some.inj ht
      obtain ⟨out', hrec', hshard⟩ := h.carries.reconstructs hI hrs hS.codeword hS.shard_length hc t
      obtain rfl : out = out' := Option.some.inj (hrec.symm.trans hrec')
      have hsig : set.signature = (S.data p).signature :=
        (h.known ⟨t, hmem⟩).2.trans (hS.signature (.data p)).symm
      have hb := (rebuild_ok hre).parsed
      rw [hshard p shard hin, hsig] at hb
      exact Shred.sameButProof_of_rebuilt ((S.data p).position_data (hS.position (.data p))).1
        ((hS.chainedMerkleRoot (.data p)).trans (hS.chainedMerkleRoot t).symm)
        ((hS.retransmitterSignature (.data p)).trans (hS.retransmitterSignature t).symm)
        ((hS.proofSize (.data p)).trans (hS.proofSize t).symm) hb
    · contradiction

/-- Any 32 of the 64 shreds of a set bring back the others. -/
theorem any_half_is_enough (hS : S.Consistent Codeword slot version f) {rs : ReedSolomon}
    (hrs : rs.Rebuilds Codeword) {order : List Position} (hnd : order.Nodup)
    (hc : (FecSet.empty.insertAll (order.map S.shred)).canRecover = true) :
    ∃ set', (FecSet.empty.insertAll (order.map S.shred)).recover rs =
        .ok (set', .ok (((List.finRange 32).filter fun p => .data p ∉ order).map fun p : Fin 32 => f + (p : ℕ))) ∧
      set'.isComplete = true ∧ set'.numCode = 0 ∧ (∀ p, set'.code p = none) ∧
      ∀ p, ∃ y, set'.data p = some y ∧ (.data p ∈ order → y = S.data p) ∧ (S.data p).SameButProof y := by
  obtain ⟨root, hroot⟩ := hS.sealed
  have harr := arrived_insertAll hroot hnd
  have hI := harr.inv
  -- a complete set has nothing to recover
  obtain ⟨p₀, hp₀⟩ : ∃ p, .data p ∉ order.toFinset := by
    by_contra hall
    have hcomp := harr.full fun p => by_contra fun hp => hall ⟨p, hp⟩
    simp [canRecover, hcomp] at hc
  have hhold := harr.waiting p₀ hp₀
  obtain ⟨set', hok, hdata⟩ := hhold.recover hS hI hrs hc
  obtain ⟨set'', r, hok', hr⟩ := recover_cases hI hc rs
  obtain ⟨rfl, rfl⟩ := Prod.mk.inj (Except.ok.inj (hok.symm.trans hok'))
  have hI' := hr.inv hI
  have hmissing : (FecSet.empty.insertAll (order.map S.shred)).missing =
      (List.finRange 32).filter fun p => .data p ∉ order := by
    apply List.filter_congr
    intro p _
    rw [hhold.data]
    by_cases hp : Position.data p ∈ order
    · simp [hp]
    · simp [hp]
  obtain ⟨_, hfull, hcode⟩ := hr.ok
  have hnum : set'.numCode = 0 := by
    have hnone : set'.code = fun _ => none := funext hcode
    rw [hI'.num_code, hnone, occupied_none]
  refine ⟨set', by rw [← hmissing]; exact hok, hI'.toPlaced.isComplete_iff.mpr hfull, hnum, hcode, fun p => ?_⟩
  obtain ⟨y, hy, _⟩ := hdata p
  refine ⟨y, hy, fun hp => ?_, hhold.recover_same hS hI hrs hc hok hy⟩
  have hheld : (FecSet.empty.insertAll (order.map S.shred)).data p = some (S.data p) := by
    rw [hhold.data, if_pos (List.mem_toFinset.mpr hp)]
  have hkeep := hr.keeps hheld
  rw [hy] at hkeep
  exact Option.some.inj hkeep

end LeaderSet

/- Half of the data shreds and half of the code shreds. -/
def halfOrder : List Position :=
  ((List.finRange 32).drop 16).map Position.data ++ ((List.finRange 32).take 16).map Position.code

theorem lineSet_half_canRecover [Hasher] {slot : ℕ} (hs : slot < 2 ^ 64) :
    (FecSet.empty.insertAll (halfOrder.map (lineSet slot hs).shred)).canRecover = true := by
  obtain ⟨root, hroot⟩ := (lineSet_consistent hs).sealed
  have hnd : halfOrder.Nodup := by decide
  have harr := LeaderSet.arrived_insertAll hroot hnd
  have h0 : Position.data 0 ∉ halfOrder.toFinset := by decide
  exact ((harr.waiting 0 h0).canRecover_iff harr.inv h0).mpr (by decide)

theorem any_half_is_enough_line :
    let S := @lineSet sha256Hasher 9 (by decide)
    ∃ set', (@FecSet.insertAll sha256Hasher FecSet.empty (halfOrder.map S.shred)).recover
        (ReedSolomon.table (lineCodeword 9 fun _ => 0)) =
        .ok (set', .ok (((List.finRange 32).filter fun p => .data p ∉ halfOrder).map fun p : Fin 32 => 0 + (p : ℕ))) ∧
      set'.isComplete = true ∧ set'.numCode = 0 ∧ (∀ p, set'.code p = none) ∧
      ∀ p, ∃ y, set'.data p = some y ∧ (.data p ∈ halfOrder → y = S.data p) ∧ (S.data p).SameButProof y :=
  @LeaderSet.any_half_is_enough sha256Hasher _ _ _ _ _ (@lineSet_consistent sha256Hasher 9 (by decide)) _
    (ReedSolomon.table_rebuilds (lineCodeword_length ..)) halfOrder (by decide)
    (@lineSet_half_canRecover sha256Hasher 9 (by decide))

end Deshred
