import Deshred.Fec

/-!
# What a FEC set looks like after any sequence of inserts

`Inv f set` ties the two counters to the two arrays, places every shred at its own
position of set `f`, and says that a complete set holds no code shred.
-/

namespace Deshred

theorem update_eq_some {α β : Type} [DecidableEq α] {a : α → Option β} {p q : α} {x y : β}
    (h : Function.update a p (some x) q = some y) : q = p ∧ y = x ∨ a q = some y := by
  rw [Function.update_apply] at h
  split at h
  · rename_i hq
    exact .inl ⟨hq, (Option.some.inj h).symm⟩
  · exact .inr h

/- Number of filled places of one of the two arrays. -/
def occupied (a : Fin 32 → Option Shred) : ℕ := (Finset.univ.filter fun p => (a p).isSome).card

theorem occupied_none : occupied (fun _ => none) = 0 := by simp [occupied]

theorem occupied_update {a : Fin 32 → Option Shred} {p : Fin 32} (h : a p = none) (x : Shred) :
    occupied (Function.update a p (some x)) = occupied a + 1 := by
  have hset : (Finset.univ.filter fun q => (Function.update a p (some x) q).isSome) =
      Insert.insert p (Finset.univ.filter fun q => (a q).isSome) := by
    ext q
    simp only [Finset.mem_filter, Finset.mem_univ, true_and, Finset.mem_insert]
    by_cases hq : q = p
    · simp [hq]
    · simp [hq]
  have hp : p ∉ Finset.univ.filter fun q => (a q).isSome := by simp [h]
  rw [occupied, hset, Finset.card_insert_of_notMem hp]
  rfl

theorem occupied_le (a : Fin 32 → Option Shred) : occupied a ≤ 32 := by
  have h := Finset.card_filter_le (Finset.univ : Finset (Fin 32)) fun p => (a p).isSome
  simpa [occupied] using h

theorem occupied_full {a : Fin 32 → Option Shred} : occupied a = 32 ↔ ∀ p, (a p).isSome := by
  constructor
  · intro h p
    have hall := Finset.eq_of_subset_of_card_le (Finset.filter_subset (fun p => (a p).isSome) Finset.univ)
      (by simp only [Finset.card_univ, Fintype.card_fin]; exact h.ge)
    have hp : p ∈ Finset.univ.filter fun p => (a p).isSome := by
      rw [hall]
      exact Finset.mem_univ p
    simpa using hp
  · intro h
    simp [occupied, h]

theorem occupied_pos {a : Fin 32 → Option Shred} (h : 0 < occupied a) : ∃ p x, a p = some x := by
  obtain ⟨p, hp⟩ := Finset.card_pos.mp h
  obtain ⟨x, hx⟩ := Option.isSome_iff_exists.mp (Finset.mem_filter.mp hp).2
  exact ⟨p, x, hx⟩

namespace FecSet

/- Every shred in its place, and counted. -/
structure Placed (f : ℕ) (set : FecSet) : Prop where
  data_at : ∀ p x, set.data p = some x → x.position = .data p ∧ x.fecSetIndex = f
  code_at : ∀ p x, set.code p = some x → x.position = .code p ∧ x.fecSetIndex = f
  num_data : set.numData = occupied set.data
  num_code : set.numCode = occupied set.code

structure Inv (f : ℕ) (set : FecSet) : Prop extends Placed f set where
  complete : set.isComplete = true → ∀ p, set.code p = none

theorem Inv.empty (f : ℕ) : Inv f FecSet.empty where
  data_at := by simp [FecSet.empty]
  code_at := by simp [FecSet.empty]
  num_data := by simp [FecSet.empty, occupied]
  num_code := by simp [FecSet.empty, occupied]
  complete := by simp [FecSet.empty]

theorem Placed.isComplete_iff {f : ℕ} {set : FecSet} (h : Placed f set) :
    set.isComplete = true ↔ ∀ p, (set.data p).isSome := by
  simp only [isComplete, h.num_data, dataShredsPerFecSet, decide_eq_true_eq, occupied_full]

/-- What is held at a place of the set. -/
def held (set : FecSet) : Position → Option Shred
  | .data p => set.data p
  | .code p => set.code p

theorem get_eq (set : FecSet) (x : Shred) : set.get x = set.held x.position := by
  unfold get held
  cases x.position <;> rfl

/-! ### place -/

theorem place_data (set : FecSet) {x : Shred} {p : Fin 32} (h : x.position = .data p) :
    (set.place x).data = Function.update set.data p (some x) := by
  unfold place dropCode
  simp only [h]
  split <;> rfl

theorem place_data_of_code (set : FecSet) {x : Shred} {p : Fin 32} (h : x.position = .code p) :
    (set.place x).data = set.data := by
  unfold place dropCode
  simp only [h]
  split <;> rfl

theorem place_root (set : FecSet) (x : Shred) : (set.place x).root = set.root := by
  unfold place dropCode
  dsimp only
  split <;> split <;> rfl

theorem place_signature (set : FecSet) (x : Shred) : (set.place x).signature = set.signature := by
  unfold place dropCode
  dsimp only
  split <;> split <;> rfl

/-- A code shred placed in a set without all its data stays; the others stay with it. -/
theorem place_code {set : FecSet} {x : Shred} {p : Fin 32} (h : x.position = .code p)
    (hc : set.isComplete = false) : (set.place x).code = Function.update set.code p (some x) := by
  unfold place dropCode
  simp only [h]
  rw [if_neg]
  simpa [isComplete] using hc

theorem place_code_of_data (set : FecSet) {x : Shred} {p : Fin 32} (h : x.position = .data p) :
    (set.place x).code = if set.numData + 1 = 32 then fun _ => none else set.code := by
  unfold place dropCode
  simp only [h, isComplete, dataShredsPerFecSet, decide_eq_true_eq]
  split <;> rfl

theorem Inv.place {f : ℕ} {set : FecSet} (hI : Inv f set) {x : Shred} (hx : x.fecSetIndex = f)
    (hnew : set.get x = none) (hkind : x.kind = .code → set.isComplete = false) : Inv f (set.place x) := by
  rw [get_eq] at hnew
  cases hp : x.position with
  | data p =>
    rw [hp] at hnew
    have hocc : occupied (Function.update set.data p (some x)) = occupied set.data + 1 :=
      occupied_update hnew x
    have hdata := set.place_data hp
    have hcode := set.place_code_of_data hp
    have hnum : (set.place x).numData = set.numData + 1 := by
      unfold FecSet.place dropCode
      simp only [hp]
      split <;> rfl
    refine ⟨⟨?_, ?_, ?_, ?_⟩, ?_⟩
    · intro q y hy
      rw [hdata] at hy
      rcases update_eq_some hy with ⟨rfl, rfl⟩ | hy
      · exact ⟨hp, hx⟩
      · exact hI.data_at q y hy
    · intro q y hy
      rw [hcode] at hy
      split at hy
      · contradiction
      · exact hI.code_at q y hy
    · rw [hnum, hdata, hocc, hI.num_data]
    · unfold FecSet.place dropCode
      simp only [hp]
      split
      · exact occupied_none.symm
      · exact hI.num_code
    · intro hc q
      simp only [isComplete, hnum, dataShredsPerFecSet, decide_eq_true_eq] at hc
      rw [hcode, if_pos hc]
  | code p =>
    have hc := hkind (x.position_code hp).1
    rw [hp] at hnew
    have hdata := set.place_data_of_code hp
    have hcode := place_code hp hc
    have hstay : (set.place x).numData = set.numData ∧ (set.place x).numCode = set.numCode + 1 := by
      unfold FecSet.place dropCode
      simp only [hp]
      rw [if_neg (by simpa [isComplete] using hc)]
      exact ⟨rfl, rfl⟩
    refine ⟨⟨?_, ?_, ?_, ?_⟩, ?_⟩
    · rw [hdata]
      exact hI.data_at
    · intro q y hy
      rw [hcode] at hy
      rcases update_eq_some hy with ⟨rfl, rfl⟩ | hy
      · exact ⟨hp, hx⟩
      · exact hI.code_at q y hy
    · rw [hstay.1, hdata, hI.num_data]
    · rw [hstay.2, hcode, occupied_update hnew, hI.num_code]
    · intro hcomp
      simp only [isComplete, hstay.1] at hcomp
      simp only [isComplete] at hc
      rw [hcomp] at hc
      contradiction

/-! ### insert -/

/- The set after it took in `x`: whether or not `x` was the first, root and
signature are now those of `x`. -/
def accepted (set : FecSet) (x : Shred) (root : Hash32) : FecSet :=
  place { set with root := some root, signature := x.signature } x

theorem accepted_root (set : FecSet) (x : Shred) (root : Hash32) :
    (set.accepted x root).root = some root := place_root _ _

theorem accepted_signature (set : FecSet) (x : Shred) (root : Hash32) :
    (set.accepted x root).signature = x.signature := place_signature _ _

theorem accepted_data (set : FecSet) (x : Shred) (root : Hash32) {p : Fin 32}
    (h : x.position = .data p) : (set.accepted x root).data = Function.update set.data p (some x) :=
  place_data _ h

theorem accepted_data_of_code (set : FecSet) (x : Shred) (root : Hash32) {p : Fin 32}
    (h : x.position = .code p) : (set.accepted x root).data = set.data :=
  place_data_of_code _ h

theorem accepted_code {set : FecSet} {x : Shred} (root : Hash32) {p : Fin 32}
    (h : x.position = .code p) (hc : set.isComplete = false) :
    (set.accepted x root).code = Function.update set.code p (some x) :=
  place_code h hc

theorem accepted_code_of_data (set : FecSet) (x : Shred) (root : Hash32) {p : Fin 32}
    (h : x.position = .data p) :
    (set.accepted x root).code = if set.numData + 1 = 32 then fun _ => none else set.code :=
  place_code_of_data _ h

theorem accepted_keeps {set : FecSet} {x y : Shred} (root : Hash32) (hfresh : set.get x = none) {p : Fin 32}
    (hy : set.data p = some y) : (set.accepted x root).data p = some y := by
  rw [get_eq] at hfresh
  cases hp : x.position with
  | data q =>
    have hpq : p ≠ q := by
      intro he
      rw [hp, ← he, held, hy] at hfresh
      contradiction
    rw [accepted_data _ x root hp, Function.update_of_ne hpq]
    exact hy
  | code q =>
    rw [accepted_data_of_code _ x root hp]
    exact hy

theorem accepted_held {set : FecSet} {x y : Shred} {root : Hash32} {q : Position}
    (hneeded : x.kind = .code → set.isComplete = false) (h : (set.accepted x root).held q = some y) :
    set.held q = some y ∨ q = x.position ∧ y = x := by
  cases hp : x.position with
  | data p =>
    cases q with
    | data r =>
      simp only [held, accepted_data set x root hp] at h ⊢
      rcases update_eq_some h with ⟨rfl, rfl⟩ | h
      · exact .inr ⟨rfl, rfl⟩
      · exact .inl h
    | code r =>
      simp only [held, accepted_code_of_data set x root hp] at h ⊢
      split at h
      · contradiction
      · exact .inl h
  | code p =>
    cases q with
    | data r =>
      simp only [held, accepted_data_of_code set x root hp] at h ⊢
      exact .inl h
    | code r =>
      have hc := hneeded (x.position_code hp).1
      simp only [held, accepted_code root hp hc] at h ⊢
      rcases update_eq_some h with ⟨rfl, rfl⟩ | h
      · exact .inr ⟨rfl, rfl⟩
      · exact .inl h

section
variable [Hasher]

/- The checks of `insert` that a shred passes to be taken in. -/
structure Accepts (set : FecSet) (x : Shred) (root : Hash32) : Prop where
  needed : x.kind = .code → set.isComplete = false
  fresh : set.get x = none
  proof : x.merkleRoot = some root
  agrees : set.root = none ∨ set.root = some root ∧ set.signature = x.signature

theorem insert_cases (set : FecSet) (x : Shred) :
    (∃ root, Accepts set x root ∧ set.insert x = (accepted set x root, .new)) ∨
      (∃ why, why ≠ .new ∧ set.insert x = (set, why) ∧ ∀ root, ¬ Accepts set x root) := by
  unfold insert
  split
  · rename_i hc
    exact .inr ⟨.unneeded, by simp, rfl, fun root h => by simp [h.needed hc.1] at hc⟩
  · rename_i hc
    have hneeded : x.kind = .code → set.isComplete = false := by
      intro hk
      simpa [hk] using hc
    split
    · rename_i hg
      exact .inr ⟨.duplicate, by simp, rfl, fun root h => by simp [h.fresh] at hg⟩
    · rename_i hg
      have hfresh : set.get x = none := by simpa using hg
      split
      · rename_i hr
        exact .inr ⟨.rejected .badProof, by simp, rfl, fun root h => by simp [h.proof] at hr⟩
      · rename_i root hr
        split
        · rename_i hnone
          exact .inl ⟨root, ⟨hneeded, hfresh, hr, .inl hnone⟩, rfl⟩
        · rename_i known hknown
          have hsame : ∀ root', Accepts set x root' → known = root ∧ set.signature = x.signature := by
            intro root' h
            have heq : root = root' := Option.some.inj (hr.symm.trans h.proof)
            rcases h.agrees with hn | hs
            · simp [hknown] at hn
            · rw [hknown] at hs
              exact ⟨(Option.some.inj hs.1).trans heq.symm, hs.2⟩
          split
          · rename_i hne
            exact .inr ⟨_, by simp, rfl, fun root' h => hne (hsame root' h).1⟩
          · rename_i heq
            have heq : known = root := by simpa using heq
            split
            · rename_i hsig
              exact .inr ⟨_, by simp, rfl, fun root' h => hsig (hsame root' h).2⟩
            · rename_i hsig
              have hsig : set.signature = x.signature := by simpa using hsig
              refine .inl ⟨root, ⟨hneeded, hfresh, hr, .inr ⟨by rw [hknown, heq], hsig⟩⟩, ?_⟩
              unfold accepted
              rw [← heq, ← hknown, ← hsig]

theorem insert_new_iff (set : FecSet) (x : Shred) :
    (set.insert x).2 = .new ↔ ∃ root, Accepts set x root := by
  obtain ⟨root, ha, h⟩ | ⟨why, hne, h, hno⟩ := set.insert_cases x
  · rw [h]
    exact ⟨fun _ => ⟨root, ha⟩, fun _ => rfl⟩
  · rw [h]
    exact ⟨fun he => absurd he hne, fun ⟨root, ha⟩ => absurd ha (hno root)⟩

theorem insert_unchanged {set : FecSet} {x : Shred} (h : (set.insert x).2 ≠ .new) :
    (set.insert x).1 = set := by
  obtain ⟨root, _, he⟩ | ⟨why, _, he, _⟩ := set.insert_cases x
  · rw [he] at h
    contradiction
  · rw [he]

/- A shred that is there is not taken in again. -/
theorem insert_of_held {set : FecSet} {x : Shred} (h : (set.get x).isSome = true) : (set.insert x).1 = set := by
  apply insert_unchanged
  rw [Ne, insert_new_iff]
  rintro ⟨root, hacc⟩
  rw [hacc.fresh] at h
  contradiction

theorem insert_of_accepts {set : FecSet} {x : Shred} {root : Hash32} (h : Accepts set x root) :
    set.insert x = (accepted set x root, .new) := by
  obtain ⟨root', h', he⟩ | ⟨_, _, _, hno⟩ := set.insert_cases x
  · rw [he, Option.some.inj (h.proof.symm.trans h'.proof)]
  · exact absurd h (hno root)

theorem insert_duplicate_iff {set : FecSet} {x : Shred} :
    (set.insert x).2 = .duplicate ↔ ¬ (x.kind = .code ∧ set.isComplete = true) ∧ (set.get x).isSome := by
  unfold insert
  split
  · rename_i hc
    simp [hc]
  · rename_i hc
    split
    · rename_i hg
      simp [hc, hg]
    · rename_i hg
      simp only [hc, hg, not_false_eq_true, Bool.false_eq_true, and_false, iff_false]
      split
      · simp
      · split
        · simp
        · split
          · simp
          · split <;> simp

theorem Inv.accepted {f : ℕ} {set : FecSet} (hI : Inv f set) {x : Shred} {root : Hash32}
    (hx : x.fecSetIndex = f) (h : Accepts set x root) : Inv f (set.accepted x root) :=
  have hI' : Inv f { set with root := some root, signature := x.signature } :=
    ⟨⟨hI.data_at, hI.code_at, hI.num_data, hI.num_code⟩, hI.complete⟩
  hI'.place hx h.fresh h.needed

end

end FecSet
end Deshred
