import Mathlib.Data.List.AList

/-!
# A table filled under distinct keys

Entries inserted one after the other. When no key comes twice, nothing is overwritten and
the table is the list.
-/

namespace Tally
variable {α β : Type} [DecidableEq α]

abbrev Table (α β : Type) := AList fun _ : α => β

def insertAll (table : Table α β) (entries : List (α × β)) : Table α β :=
  entries.foldl (fun table e => table.insert e.1 e.2) table

theorem insertAll_append (table : Table α β) (l₁ l₂ : List (α × β)) :
    insertAll table (l₁ ++ l₂) = insertAll (insertAll table l₁) l₂ := List.foldl_append

/-- Nothing is overwritten. -/
theorem entries_insertAll {entries : List (α × β)} (h : (entries.map Prod.fst).Nodup) {table : Table α β}
    (hnew : ∀ e ∈ entries, e.1 ∉ table) :
    (insertAll table entries).entries = (entries.map fun e => ⟨e.1, e.2⟩).reverse ++ table.entries := by
  induction entries generalizing table with
  | nil => rfl
  | cons e entries ih =>
    rw [List.map_cons, List.nodup_cons] at h
    have hrest : ∀ e' ∈ entries, e'.1 ∉ table.insert e.1 e.2 := by
      intro e' he'
      rw [AList.mem_insert, not_or]
      refine ⟨fun heq => h.1 ?_, hnew e' (List.mem_cons_of_mem _ he')⟩
      rw [← heq]
      exact List.mem_map_of_mem he'
    have hstep : insertAll table (e :: entries) = insertAll (table.insert e.1 e.2) entries := rfl
    rw [hstep, ih h.2 hrest, AList.entries_insert_of_notMem (hnew e (List.mem_cons_self ..)), List.map_cons,
      List.reverse_cons, List.append_assoc]
    rfl

theorem entries_perm {entries : List (α × β)} (h : (entries.map Prod.fst).Nodup) :
    (insertAll ∅ entries).entries.Perm (entries.map fun e => ⟨e.1, e.2⟩) := by
  rw [entries_insertAll h fun e _ => AList.notMem_empty e.1, AList.empty_entries, List.append_nil]
  exact List.reverse_perm _

/-- What a key finds is what was inserted under it. -/
theorem lookup_iff {entries : List (α × β)} (h : (entries.map Prod.fst).Nodup) (k : α) (v : β) :
    (insertAll ∅ entries).lookup k = some v ↔ (k, v) ∈ entries := by
  rw [← Option.mem_def, AList.mem_lookup_iff, (entries_perm h).mem_iff, List.mem_map]
  constructor
  · rintro ⟨e, he, heq⟩
    cases heq
    exact he
  · intro he
    exact ⟨(k, v), he, rfl⟩

end Tally
