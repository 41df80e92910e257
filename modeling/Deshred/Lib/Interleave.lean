import Mathlib.Data.List.Basic

/-!
# Interleavings

`Interleave kept lost l`: every element of `l` went to one of two lists, and both keep
its order.
-/

inductive Interleave {α : Type} : List α → List α → List α → Prop where
  | nil : Interleave [] [] []
  | keep (a : α) {kept lost l : List α} (h : Interleave kept lost l) : Interleave (a :: kept) lost (a :: l)
  | lose (a : α) {kept lost l : List α} (h : Interleave kept lost l) : Interleave kept (a :: lost) (a :: l)

namespace Interleave
variable {α : Type} {kept lost l kept' lost' l' : List α}

theorem append (h : Interleave kept lost l) (h' : Interleave kept' lost' l') :
    Interleave (kept ++ kept') (lost ++ lost') (l ++ l') := by
  induction h with
  | nil => exact h'
  | keep a _ ih => exact .keep a ih
  | lose a _ ih => exact .lose a ih

theorem all_kept (l : List α) : Interleave l [] l := by
  induction l with
  | nil => exact .nil
  | cons a l ih => exact .keep a ih

theorem append_kept (h : Interleave kept lost l) (as : List α) : Interleave (kept ++ as) lost (l ++ as) := by
  have happ := h.append (all_kept as)
  rwa [List.append_nil] at happ

theorem snoc_lost (h : Interleave kept lost l) (a : α) : Interleave kept (lost ++ [a]) (l ++ [a]) := by
  have happ := h.append (.lose a .nil)
  rwa [List.append_nil] at happ

theorem length_eq (h : Interleave kept lost l) : kept.length + lost.length = l.length := by
  induction h with
  | nil => rfl
  | keep a _ ih =>
    simp only [List.length_cons]
    omega
  | lose a _ ih =>
    simp only [List.length_cons]
    omega

theorem kept_sublist (h : Interleave kept lost l) : kept.Sublist l := by
  induction h with
  | nil => exact .slnil
  | keep a _ ih => exact ih.cons_cons a
  | lose a _ ih => exact ih.cons a

end Interleave
