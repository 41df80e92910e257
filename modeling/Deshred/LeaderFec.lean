import Deshred.Leader

/-!
# A FEC set fed with a leader's shreds

As long as a data shred of the set has not arrived and no recovery ran, the set
holds exactly the shreds that arrived.
-/

namespace Deshred
open FecSet

/- What arrived before `q` is without repetition and without `q`. -/
theorem nodup_before {before after : List Position} {q : Position} (h : (before ++ q :: after).Nodup) :
    before.Nodup ∧ q ∉ before.toFinset := by
  obtain ⟨hbefore, _, hapart⟩ := List.nodup_append.mp h
  refine ⟨hbefore, fun hq => ?_⟩
  exact hapart q (List.mem_toFinset.mp hq) q (List.mem_cons_self ..) rfl

/-! ### Data and code among the places -/

def dataOf (A : Finset Position) : Finset (Fin 32) := Finset.univ.filter fun p => .data p ∈ A

def codeOf (A : Finset Position) : Finset (Fin 32) := Finset.univ.filter fun p => .code p ∈ A

theorem mem_dataOf {A : Finset Position} {p : Fin 32} : p ∈ dataOf A ↔ .data p ∈ A := by simp [dataOf]

theorem mem_codeOf {A : Finset Position} {p : Fin 32} : p ∈ codeOf A ↔ .code p ∈ A := by simp [codeOf]

theorem card_split (A : Finset Position) : (dataOf A).card + (codeOf A).card = A.card := by
  have hsplit : A = (dataOf A).image Position.data ∪ (codeOf A).image Position.code := by
    ext q
    cases q with
    | data p => simp [mem_dataOf]
    | code p => simp [mem_codeOf]
  have hdisj : Disjoint ((dataOf A).image Position.data) ((codeOf A).image Position.code) := by
    rw [Finset.disjoint_left]
    intro q hd hc
    obtain ⟨p, _, rfl⟩ := Finset.mem_image.mp hd
    obtain ⟨r, _, hr⟩ := Finset.mem_image.mp hc
    contradiction
  have hdata : ((dataOf A).image Position.data).card = (dataOf A).card :=
    Finset.card_image_of_injective _ fun a b hab => Position.data.inj hab
  have hcode : ((codeOf A).image Position.code).card = (codeOf A).card :=
    Finset.card_image_of_injective _ fun a b hab => Position.code.inj hab
  have hunion := Finset.card_union_of_disjoint hdisj
  rw [← hsplit, hdata, hcode] at hunion
  exact hunion.symm

namespace FecSet

theorem accepted_held_eq {f : ℕ} {set : FecSet} {x : Shred} {root : Hash32} (hI : Inv f (set.accepted x root))
    (hneeded : x.kind = .code → set.isComplete = false) {p : Fin 32}
    (hopen : (set.accepted x root).data p = none) (q : Position) :
    (set.accepted x root).held q = if q = x.position then some x else set.held q := by
  cases hp : x.position with
  | data r =>
    cases q with
    | data s =>
      simp only [held, accepted_data set x root hp, Position.data.injEq]
      by_cases hs : s = r
      · rw [if_pos hs, hs, Function.update_self]
      · rw [if_neg hs, Function.update_of_ne hs]
    | code s =>
      have hnum : set.numData + 1 ≠ 32 := by
        intro hn
        have hcode := accepted_code_of_data set x root hp
        have hcomp : (set.accepted x root).isComplete = true := by
          unfold accepted place isComplete dropCode
          simp only [hp, hn, dataShredsPerFecSet, decide_true, ↓reduceIte]
        have hall := hI.toPlaced.isComplete_iff.mp hcomp p
        rw [hopen] at hall
        contradiction
      simp only [held, accepted_code_of_data set x root hp, if_neg hnum, reduceCtorEq, ↓reduceIte]
  | code r =>
    have hc := hneeded (x.position_code hp).1
    cases q with
    | data s => simp only [held, accepted_data_of_code set x root hp, reduceCtorEq, ↓reduceIte]
    | code s =>
      simp only [held, accepted_code root hp hc, Position.code.injEq]
      by_cases hs : s = r
      · rw [if_pos hs, hs, Function.update_self]
      · rw [if_neg hs, Function.update_of_ne hs]

end FecSet

namespace LeaderSet
variable [Hasher] {S : LeaderSet} {f : ℕ} {root : Hash32} {signature : Signature} {A : Finset Position}
  {set : FecSet}

/-- The set holds the shreds of `S` at the places `A` and nothing else. -/
structure Holding (S : LeaderSet) (root : Hash32) (signature : Signature) (A : Finset Position)
    (set : FecSet) : Prop where
  held : ∀ q, set.held q = if q ∈ A then some (S.shred q) else none
  first : A = ∅ → set.root = none
  known : A.Nonempty → set.root = some root ∧ set.signature = signature

omit [Hasher] in
theorem Holding.empty : S.Holding root signature ∅ FecSet.empty where
  held q := by cases q <;> rfl
  first _ := rfl
  known h := by simp at h

omit [Hasher] in
theorem Holding.data (h : S.Holding root signature A set) (p : Fin 32) :
    set.data p = if .data p ∈ A then some (S.data p) else none := h.held (.data p)

omit [Hasher] in
theorem Holding.code (h : S.Holding root signature A set) (p : Fin 32) :
    set.code p = if .code p ∈ A then some (S.code p) else none := h.held (.code p)

omit [Hasher] in
theorem Holding.not_complete (h : S.Holding root signature A set) (hI : Inv f set) {p : Fin 32}
    (hp : .data p ∉ A) : set.isComplete = false := by
  have hnone : set.data p = none := by rw [h.data, if_neg hp]
  by_contra hc
  have hall := hI.toPlaced.isComplete_iff.mp (by simpa using hc) p
  rw [hnone] at hall
  contradiction

theorem Holding.accepts (h : S.Holding root signature A set) {q : Position}
    (hS : S.Sealed f root signature q) (hq : q ∉ A) (hc : set.isComplete = false) : Accepts set (S.shred q) root where
  needed _ := hc
  fresh := by rw [get_eq, hS.position, h.held, if_neg hq]
  proof := hS.merkleRoot
  agrees := by
    rcases A.eq_empty_or_nonempty with hA | hA
    · exact .inl (h.first hA)
    · obtain ⟨hr, hs⟩ := h.known hA
      exact .inr ⟨hr, hs.trans hS.signature.symm⟩

theorem Holding.accepted (h : S.Holding root signature A set) {q : Position}
    (hS : S.Sealed f root signature q) (hI : Inv f set) (hq : q ∉ A) {p : Fin 32} (hp : .data p ∉ insert q A) :
    S.Holding root signature (insert q A) (set.accepted (S.shred q) root) := by
  rw [Finset.mem_insert, not_or] at hp
  have hacc := h.accepts hS hq (h.not_complete hI hp.2)
  have hI' := hI.accepted hS.fecSetIndex hacc
  have hopen : (set.accepted (S.shred q) root).data p = none := by
    cases hd : (set.accepted (S.shred q) root).data p with
    | none => rfl
    | some y =>
      rcases accepted_held (q := .data p) hacc.needed hd with hold | ⟨hpos, _⟩
      · rw [h.held, if_neg hp.2] at hold
        contradiction
      · rw [hS.position] at hpos
        exact absurd hpos hp.1
  refine ⟨?_, ?_, ?_⟩
  · intro r
    rw [accepted_held_eq hI' hacc.needed hopen, hS.position, h.held]
    by_cases hr : r = q
    · simp [hr]
    · simp [hr]
  · intro he
    exact absurd he (Finset.insert_ne_empty q A)
  · intro _
    exact ⟨accepted_root _ _ _, (accepted_signature _ _ _).trans hS.signature⟩

theorem Holding.accepted_data (h : S.Holding root signature A set) {q : Position}
    (hS : S.Sealed f root signature q) (hacc : Accepts set (S.shred q) root) {p : Fin 32} (hp : .data p ∈ insert q A) :
    (set.accepted (S.shred q) root).data p = some (S.data p) := by
  rcases Finset.mem_insert.mp hp with hq | hp
  · rw [FecSet.accepted_data set _ root (hS.position.trans hq.symm), Function.update_self, ← hq]
    rfl
  · apply accepted_keeps root hacc.fresh
    rw [h.data, if_pos hp]

omit [Hasher] in
theorem Holding.data_count (h : S.Holding root signature A set) (hI : Inv f set) : set.numData = (dataOf A).card := by
  rw [hI.num_data, occupied]
  congr 1
  ext p
  simp only [dataOf, Finset.mem_filter, Finset.mem_univ, true_and, h.data]
  split <;> simp_all

omit [Hasher] in
theorem Holding.code_count (h : S.Holding root signature A set) (hI : Inv f set) : set.numCode = (codeOf A).card := by
  rw [hI.num_code, occupied]
  congr 1
  ext p
  simp only [codeOf, Finset.mem_filter, Finset.mem_univ, true_and, h.code]
  split <;> simp_all

omit [Hasher] in
theorem Holding.count (h : S.Holding root signature A set) (hI : Inv f set) : set.numData + set.numCode = A.card := by
  rw [h.data_count hI, h.code_count hI, card_split]

omit [Hasher] in
/-- With 32 shreds and a data shred missing, some of the 32 are code shreds. -/
theorem Holding.canRecover_iff (h : S.Holding root signature A set) (hI : Inv f set) {p : Fin 32}
    (hp : .data p ∉ A) : set.canRecover = true ↔ 32 ≤ A.card := by
  have hcount := h.count hI
  have hcomp := h.not_complete hI hp
  have hlt : set.numData < 32 := by
    have hle := occupied_le set.data
    rw [← hI.num_data] at hle
    have hne : set.numData ≠ 32 := by
      intro he
      simp [isComplete, he, dataShredsPerFecSet] at hcomp
    omega
  have hcan : set.canRecover = true ↔ 0 < set.numCode ∧ 32 ≤ set.numData + set.numCode := by
    simp only [canRecover, hcomp, Bool.not_false, Bool.true_and, Bool.and_eq_true, decide_eq_true_eq]
    rfl
  rw [hcan]
  omega

/-! ### Recovery -/

/- Every shred held has the leader's erasure shard. -/
def Carries (S : LeaderSet) (set : FecSet) : Prop :=
  ∀ q y, set.held q = some y → y.erasureShard = (S.shred q).erasureShard

variable {Codeword : List Bytes → Prop} {slot version n : ℕ}

omit [Hasher] in
theorem Holding.carries (h : S.Holding root signature A set) : S.Carries set := by
  intro q y hy
  rw [h.held] at hy
  split at hy
  · rw [Option.some.inj hy]
  · contradiction

omit [Hasher] in
/-- What the set feeds into the reconstruction: the shards of the codeword it has. -/
theorem Carries.shards_agree (h : S.Carries set) (i : ℕ) (b : Bytes)
    (hb : (set.shards n)[i]? = some (b, true)) : S.erasureShards[i]? = some b := by
  have hget : ∀ (g : Fin 32 → Option Shred) (p : Fin 32),
      ((List.finRange 32).map g)[(p : ℕ)]? = some (g p) := by
    intro g p
    simp
  have hshard : ∀ o : Option Shred, slotOf n o = (b, true) → ∃ y, o = some y ∧ y.erasureShard = b := by
    intro o ho
    cases o with
    | none => simp [slotOf] at ho
    | some y => exact ⟨y, rfl, (Prod.mk.inj ho).1⟩
  have hshards : set.shards n =
      ((List.finRange 32).map set.data ++ (List.finRange 32).map set.code).map (slotOf n) := rfl
  rw [hshards, List.getElem?_map] at hb
  rcases Nat.lt_or_ge i 32 with hi | hi
  · have hleft : i < ((List.finRange 32).map set.data).length := by simpa using hi
    rw [List.getElem?_append_left hleft, hget set.data ⟨i, hi⟩] at hb
    obtain ⟨y, hy, hyb⟩ := hshard _ (Option.some.inj hb)
    rw [S.erasureShards_data ⟨i, hi⟩, ← hyb, h (.data ⟨i, hi⟩) y hy]
    rfl
  · have hright : ((List.finRange 32).map set.data).length ≤ i := by simpa using hi
    have hlt : i - 32 < 32 := by
      by_contra hge
      have hlen : ((List.finRange 32).map set.data ++ (List.finRange 32).map set.code).length ≤ i := by
        simp only [List.length_append, List.length_map, List.length_finRange]
        omega
      rw [List.getElem?_eq_none hlen] at hb
      contradiction
    rw [List.getElem?_append_right hright, List.length_map, List.length_finRange,
      hget set.code ⟨i - 32, hlt⟩] at hb
    obtain ⟨y, hy, hyb⟩ := hshard _ (Option.some.inj hb)
    have hidx : i = 32 + ((⟨i - 32, hlt⟩ : Fin 32) : ℕ) := by
      simp only
      omega
    rw [hidx, S.erasureShards_code ⟨i - 32, hlt⟩, ← hyb, h (.code ⟨i - 32, hlt⟩) y hy]
    rfl

omit [Hasher] in
theorem shards_count (set : FecSet) (n : ℕ) :
    (set.shards n).countP Prod.snd = occupied set.data + occupied set.code := by
  have hocc : ∀ a : Fin 32 → Option Shred,
      ((List.finRange 32).map a).countP Option.isSome = occupied a := by
    intro a
    have hnd : ((List.finRange 32).filter fun p => (a p).isSome).Nodup := (List.nodup_finRange 32).filter _
    rw [List.countP_map, List.countP_eq_length_filter, occupied]
    show ((List.finRange 32).filter fun p => (a p).isSome).length = _
    rw [← List.toFinset_card_of_nodup hnd]
    congr 1
    ext p
    simp
  have hsnd : ∀ l : List (Option Shred), (l.map (slotOf n)).countP Prod.snd = l.countP Option.isSome := by
    intro l
    rw [List.countP_map]
    apply List.countP_congr
    intro x _
    cases x <;> simp [slotOf]
  have hshards : set.shards n =
      ((List.finRange 32).map set.data ++ (List.finRange 32).map set.code).map (slotOf n) := rfl
  rw [hshards, hsnd, List.countP_append, hocc, hocc]

omit [Hasher] in
theorem shards_mem {s : Bytes × Bool} (hs : s ∈ set.shards n) :
    s = (List.replicate n 0, false) ∨ ∃ q x, set.held q = some x ∧ s = (x.erasureShard, true) := by
  rw [shards, List.mem_map] at hs
  obtain ⟨x, hx, rfl⟩ := hs
  cases x with
  | none => exact .inl rfl
  | some x =>
    right
    rcases List.mem_append.mp hx with hx | hx
    · obtain ⟨p, _, hp⟩ := List.mem_map.mp hx
      exact ⟨.data p, x, hp, rfl⟩
    · obtain ⟨p, _, hp⟩ := List.mem_map.mp hx
      exact ⟨.code p, x, hp, rfl⟩

omit [Hasher] in
/-- With 32 shards of a codeword there, the reconstruction returns the leader's shard
at every missing position. -/
theorem Carries.reconstructs (h : S.Carries set) (hI : Inv f set)
    {rs : ReedSolomon} (hrs : rs.Rebuilds Codeword) (hcw : Codeword S.erasureShards)
    (hlen : ∀ q r, (S.shred q).erasureShard.length = (S.shred r).erasureShard.length) (hc : set.canRecover = true)
    (q : Position) : ∃ out, rs.reconstructData (set.shards (S.shred q).erasureShard.length) = some out ∧
      ∀ p shard, (p, shard, false) ∈ reconstructed out → shard = (S.data p).erasureShard := by
  have hn : ∀ c ∈ S.erasureShards, (S.shred q).erasureShard.length = c.length := by
    intro c hc
    obtain ⟨r, rfl⟩ := LeaderSet.mem_erasureShards.mp hc
    exact hlen q r
  have hsame : ∀ s ∈ set.shards (S.shred q).erasureShard.length, ∀ c ∈ S.erasureShards, s.1.length = c.length := by
    intro s hs c hc
    rcases shards_mem hs with rfl | ⟨r, x, hr, rfl⟩
    · rw [List.length_replicate]
      exact hn c hc
    · rw [h r x hr, ← hn c hc]
      exact hlen r q
  have hcount : 32 ≤ (set.shards (S.shred q).erasureShard.length).countP Prod.snd := by
    rw [shards_count, ← hI.num_data, ← hI.num_code]
    simp only [canRecover, Bool.and_eq_true, decide_eq_true_eq] at hc
    exact hc.2
  obtain ⟨out, hrec, htake⟩ := hrs S.erasureShards _ hcw (set.shards_length _) h.shards_agree hsame hcount
  refine ⟨out, hrec, fun p shard hp => ?_⟩
  have hget := reconstructed_getElem hp
  have hl : (out.map Prod.fst)[(p : ℕ)]? = some shard := by
    rw [List.getElem?_map, hget]
    rfl
  have hcut := congrArg (fun l : List Bytes => l[(p : ℕ)]?) htake
  simp only [List.getElem?_take, p.isLt, ↓reduceIte] at hcut
  rw [hl, S.erasureShards_data p] at hcut
  exact Option.some.inj hcut

/-- Once 32 shreds of a consistent set have arrived, recovery completes its data. -/
theorem Holding.recover (hS : S.Consistent Codeword slot version f)
    (h : S.Holding root (S.data 0).signature A set) (hI : Inv f set) {rs : ReedSolomon}
    (hrs : rs.Rebuilds Codeword) (hc : set.canRecover = true) :
    ∃ set', set.recover rs = .ok (set', .ok (set.missing.map fun p : Fin 32 => f + (p : ℕ))) ∧
      ∀ p, ∃ y, set'.data p = some y ∧ Shred.Twin (S.data p) y := by
  obtain ⟨template, q, ht, hq, hf⟩ := hI.toPlaced.anyShred hc
  have hqA : q ∈ A ∧ template = S.shred q := by
    rw [h.held] at hq
    split at hq
    · rename_i hmem
      exact ⟨hmem, (Option.some.inj hq).symm⟩
    · contradiction
  obtain ⟨hmem, rfl⟩ := hqA
  have hsig : set.signature = (S.data 0).signature := (h.known ⟨q, hmem⟩).2
  obtain ⟨out, hrec, hshard⟩ := h.carries.reconstructs hI hrs hS.codeword hS.shard_length hc q
  have hkeeps := rs.keeps _ _ hrec
  have hall : ∀ p shard, (p, shard, false) ∈ reconstructed out →
      ∃ y, FecSet.rebuild set.signature (S.shred q) p shard = .ok y ∧ Shred.Twin (S.data p) y := by
    intro p shard hp
    rw [hshard p shard hp, hsig]
    exact hS.rebuild q p
  have hnone : (rebuildAll set.signature (S.shred q) (reconstructed out)).2 = none :=
    rebuildAll_total fun p shard hp => (hall p shard hp).imp fun y hy => hy.1
  obtain ⟨rest, hpos, hend⟩ := rebuildAll_positions set.signature (S.shred q) (reconstructed out)
  rw [hend.mp hnone, List.append_nil, reconstructed_missing hkeeps] at hpos
  have hrun := recover_eq rs ht
  rw [hrec] at hrun
  dsimp only at hrun
  have hmemall := @mem_rebuildAll set.signature (S.shred q) (reconstructed out)
  generalize rebuildAll set.signature (S.shred q) (reconstructed out) = res at hnone hpos hrun hmemall
  obtain ⟨l, e⟩ := res
  obtain rfl : e = none := hnone
  have hmap : ([] : List ℕ) ++ l.map (fun x => (S.shred q).fecSetIndex + (x.1 : ℕ)) =
      set.missing.map fun p : Fin 32 => f + (p : ℕ) := by
    rw [hpos, List.map_map, hf]
    rfl
  simp only [ending, hmap] at hrun
  refine ⟨_, hrun, fun p => ?_⟩
  simp only [dropCode]
  by_cases hp : p ∈ set.missing
  · rw [hpos] at hp
    obtain ⟨⟨r, y⟩, hy, rfl⟩ := List.mem_map.mp hp
    obtain ⟨shard, hin, hok⟩ := hmemall hy
    obtain ⟨z, hz, htwin⟩ := hall r shard hin
    rw [hz, Except.ok.injEq] at hok
    have hnd : (l.map Prod.fst).Nodup := by
      rw [← hpos]
      exact set.missing_nodup
    exact ⟨y, installAll_data hnd hy, hok ▸ htwin⟩
  · have hkeep : (set.installAll l).data p = set.data p := by
      apply installAll_keeps
      rwa [hpos] at hp
    rw [hkeep]
    rw [mem_missing, h.data] at hp
    rw [h.data]
    split
    · exact ⟨S.data p, rfl, Shred.Twin.refl _⟩
    · rename_i hmem'
      rw [if_neg hmem'] at hp
      contradiction

end LeaderSet
end Deshred
