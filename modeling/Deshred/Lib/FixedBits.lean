import Mathlib.Order.Interval.Finset.Nat

/-!
# Fixed-capacity bit sets

A bit set of capacity `n` is the set of its one bits together with the fact that
they all lie below `n`. Writing or counting past the capacity is not an operation
of such a set: those calls answer `none`. Reading past it answers `false`.
-/

@[ext] structure FixedBits (n : ℕ) where
  ones : Finset ℕ
  bounded : ∀ i ∈ ones, i < n

namespace FixedBits
variable {n : ℕ}

instance : DecidableEq (FixedBits n) := fun a b =>
  decidable_of_iff (a.ones = b.ones) FixedBits.ext_iff.symm

def withCapacity (n : ℕ) : FixedBits n := ⟨∅, by simp⟩

def contains (b : FixedBits n) (i : ℕ) : Bool := i ∈ b.ones

def insert (b : FixedBits n) (i : ℕ) : Option (FixedBits n) :=
  if h : i < n then
    some ⟨Insert.insert i b.ones, by
      intro j hj
      rcases Finset.mem_insert.mp hj with rfl | hj
      · exact h
      · exact b.bounded j hj⟩
  else none

/-- Set every bit of `lo..hi`. -/
def insertRange (b : FixedBits n) (lo hi : ℕ) : Option (FixedBits n) :=
  if h : lo ≤ hi ∧ hi ≤ n then
    some ⟨b.ones ∪ Finset.Ico lo hi, by
      intro j hj
      rcases Finset.mem_union.mp hj with hj | hj
      · exact b.bounded j hj
      · exact (Finset.mem_Ico.mp hj).2.trans_le h.2⟩
  else none

/-- Number of one bits in `lo..hi`. -/
def countOnes (b : FixedBits n) (lo hi : ℕ) : Option ℕ :=
  if lo ≤ hi ∧ hi ≤ n then some (b.ones ∩ Finset.Ico lo hi).card else none

@[simp] theorem withCapacity_ones (n : ℕ) : (withCapacity n).ones = ∅ := rfl

@[simp] theorem contains_iff (b : FixedBits n) (i : ℕ) : b.contains i = true ↔ i ∈ b.ones := by
  simp [contains]

theorem insert_of_lt (b : FixedBits n) {i : ℕ} (h : i < n) :
    ∃ b', b.insert i = some b' ∧ b'.ones = Insert.insert i b.ones := by
  simp only [insert, h, ↓reduceDIte]
  exact ⟨_, rfl, rfl⟩

theorem insertRange_of_le (b : FixedBits n) {lo hi : ℕ} (h : lo ≤ hi) (hn : hi ≤ n) :
    ∃ b', b.insertRange lo hi = some b' ∧ b'.ones = b.ones ∪ Finset.Ico lo hi := by
  simp only [insertRange, h, hn, and_self, ↓reduceDIte]
  exact ⟨_, rfl, rfl⟩

theorem countOnes_eq_none_iff (b : FixedBits n) {lo hi : ℕ} (h : lo ≤ hi) :
    b.countOnes lo hi = none ↔ n < hi := by
  simp only [countOnes, h, true_and]
  split <;> simp <;> omega

theorem countOnes_eq_width_iff (b : FixedBits n) {lo w : ℕ} (h : lo + w ≤ n) :
    b.countOnes lo (lo + w) = some w ↔ ∀ i, lo ≤ i → i < lo + w → i ∈ b.ones := by
  have hc : (Finset.Ico lo (lo + w)).card = w := by simp
  simp only [countOnes, Nat.le_add_right, h, and_self, ↓reduceIte, Option.some.injEq]
  constructor
  · intro hw i h1 h2
    have heq : b.ones ∩ Finset.Ico lo (lo + w) = Finset.Ico lo (lo + w) :=
      Finset.eq_of_subset_of_card_le Finset.inter_subset_right (by omega)
    have hi : i ∈ Finset.Ico lo (lo + w) := Finset.mem_Ico.mpr ⟨h1, h2⟩
    rw [← heq] at hi
    exact (Finset.mem_inter.mp hi).1
  · intro hall
    have heq : b.ones ∩ Finset.Ico lo (lo + w) = Finset.Ico lo (lo + w) := by
      apply Finset.inter_eq_right.mpr
      intro i hi
      have hi := Finset.mem_Ico.mp hi
      exact hall i hi.1 hi.2
    rw [heq, hc]

theorem countOnes_of_le (b : FixedBits n) {lo w : ℕ} (h : lo + w ≤ n) :
    ∃ k, b.countOnes lo (lo + w) = some k := by
  simp [countOnes, h]

end FixedBits
