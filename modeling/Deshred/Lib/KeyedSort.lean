import Mathlib.Data.List.Sort

/-!
# Sorting by a key

A list whose elements have keys of their own has one sorted order: two permutations of
it sort to the same list.
-/

namespace KeyedSort
variable {α κ : Type} [LinearOrder κ]

/-- A stable sort by a key. -/
def sortByKey (key : α → κ) (l : List α) : List α := l.mergeSort fun a b => decide (key a ≤ key b)

theorem sortByKey_perm (key : α → κ) (l : List α) : (sortByKey key l).Perm l := List.mergeSort_perm _ _

theorem sortByKey_pairwise (key : α → κ) (l : List α) : (sortByKey key l).Pairwise fun a b => key a ≤ key b := by
  have hsorted : (sortByKey key l).Pairwise fun a b => decide (key a ≤ key b) = true := by
    refine List.pairwise_mergeSort (fun a b c hab hbc => ?_) (fun a b => ?_) l
    · rw [decide_eq_true_eq] at hab hbc ⊢
      exact hab.trans hbc
    · simpa using le_total (key a) (key b)
  exact hsorted.imp of_decide_eq_true

/-- A sorted list is left as it is. -/
theorem sortByKey_of_pairwise {key : α → κ} {l : List α} (h : l.Pairwise fun a b => key a ≤ key b) : sortByKey key l = l :=
  List.mergeSort_of_pairwise (h.imp decide_eq_true)

theorem sortByKey_eq_of_perm {key : α → κ} {l₁ l₂ : List α} (h : l₁.Perm l₂)
    (hkey : ∀ a ∈ l₁, ∀ b ∈ l₁, key a = key b → a = b) : sortByKey key l₁ = sortByKey key l₂ := by
  refine List.Perm.eq_of_pairwise ?_ (sortByKey_pairwise key l₁) (sortByKey_pairwise key l₂) ?_
  · intro a b ha hb hab hba
    have ha' := (sortByKey_perm key l₁).subset ha
    have hb' := h.symm.subset ((sortByKey_perm key l₂).subset hb)
    exact hkey a ha' b hb' (le_antisymm hab hba)
  · exact ((sortByKey_perm key l₁).trans h).trans (sortByKey_perm key l₂).symm

end KeyedSort
