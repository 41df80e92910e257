import Mathlib.Order.Interval.Finset.Nat
import Mathlib.Data.Finset.Max

/-!
# Runs of a delimited sequence

Indexes arrive in any order. `R` is the set of indexes present, `C` the set of
those that close a run. A run starts at index 0 or right after a closing index,
ends at the next closing index, and is ready when all of it is present.
-/

namespace Runs

/-- `[s, e]` is a run all of whose indexes are present. -/
structure IsRun (R C : Finset ℕ) (s e : ℕ) : Prop where
  le : s ≤ e
  present : ∀ i, s ≤ i → i ≤ e → i ∈ R
  closed : e ∈ C
  inner : ∀ i, s ≤ i → i < e → i ∉ C
  starts : s = 0 ∨ s - 1 ∈ C

/-- `i` lies in a ready run. -/
def Covered (R C : Finset ℕ) (i : ℕ) : Prop := ∃ s e, IsRun R C s e ∧ s ≤ i ∧ i ≤ e

/-- `out` lists every ready run, each once. -/
structure Lists (R C : Finset ℕ) (out : List (ℕ × ℕ)) : Prop where
  nodup : out.Nodup
  mem_iff : ∀ s e, (s, e) ∈ out ↔ IsRun R C s e

variable {R C R' C' F : Finset ℕ} {s e s' e' i : ℕ}

theorem IsRun.end_unique (h : IsRun R C s e) (h' : IsRun R C s' e')
    (hs : s ≤ i) (he : i ≤ e) (hs' : s' ≤ i) (he' : i ≤ e') : e = e' := by
  rcases Nat.lt_trichotomy e e' with hlt | heq | hlt
  · exact absurd h.closed (h'.inner e (by omega) hlt)
  · exact heq
  · exact absurd h'.closed (h.inner e' (by omega) hlt)

theorem IsRun.start_unique (h : IsRun R C s e) (h' : IsRun R C s' e')
    (hs : s ≤ i) (he : i ≤ e) (hs' : s' ≤ i) (he' : i ≤ e') : s = s' := by
  rcases Nat.lt_trichotomy s s' with hlt | heq | hlt
  · rcases h'.starts with h0 | hc
    · omega
    · exact absurd hc (h.inner (s' - 1) (by omega) (by omega))
  · exact heq
  · rcases h.starts with h0 | hc
    · omega
    · exact absurd hc (h'.inner (s - 1) (by omega) (by omega))

theorem IsRun.unique (h : IsRun R C s e) (h' : IsRun R C s' e')
    (hs : s ≤ i) (he : i ≤ e) (hs' : s' ≤ i) (he' : i ≤ e') : s = s' ∧ e = e' :=
  ⟨h.start_unique h' hs he hs' he', h.end_unique h' hs he hs' he'⟩

/-- A ready run stays one: later arrivals close no index that was already there. -/
theorem IsRun.mono (h : IsRun R C s e) (hR : R ⊆ R') (hC : C ⊆ C')
    (hnew : ∀ i ∈ C', i ∈ R → i ∈ C) : IsRun R' C' s e where
  le := h.le
  present i h1 h2 := hR (h.present i h1 h2)
  closed := hC h.closed
  inner i h1 h2 hc := h.inner i h1 h2 (hnew i hc (h.present i h1 h2.le))
  starts := h.starts.imp id (fun hc => hC hc)

/-- A run that becomes ready contains an arrival or starts right after one that
closes a run: scanning from those two places misses none. -/
theorem IsRun.old_or_touched (h : IsRun R' C' s e) (hR : ∀ i ∈ R', i ∈ R ∨ i ∈ F)
    (hC : ∀ i ∈ C', i ∈ C ∨ i ∈ F) (hsub : C ⊆ C') :
    IsRun R C s e ∨ (∃ i ∈ F, s ≤ i ∧ i ≤ e) ∨ ∃ i ∈ F, i ∈ C' ∧ s = i + 1 := by
  by_cases hin : ∃ i ∈ F, s ≤ i ∧ i ≤ e
  · exact .inr (.inl hin)
  have hout : ∀ i, s ≤ i → i ≤ e → i ∉ F := fun i h1 h2 hF => hin ⟨i, hF, h1, h2⟩
  by_cases hprev : s ≠ 0 ∧ s - 1 ∈ F
  · have hc : s - 1 ∈ C' := h.starts.resolve_left hprev.1
    exact .inr (.inr ⟨s - 1, hprev.2, hc, by omega⟩)
  refine .inl ⟨h.le, ?_, ?_, ?_, ?_⟩
  · intro i h1 h2
    exact (hR i (h.present i h1 h2)).resolve_right (hout i h1 h2)
  · exact (hC e h.closed).resolve_right (hout e h.le le_rfl)
  · intro i h1 h2 hc
    exact h.inner i h1 h2 (hsub hc)
  · by_cases h0 : s = 0
    · exact .inl h0
    · have hF : s - 1 ∉ F := fun hF => hprev ⟨h0, hF⟩
      exact .inr ((hC _ (h.starts.resolve_left h0)).resolve_right hF)

theorem Covered.mono (h : Covered R C i) (hR : R ⊆ R') (hC : C ⊆ C')
    (hnew : ∀ i ∈ C', i ∈ R → i ∈ C) : Covered R' C' i := by
  obtain ⟨s, e, hr, h1, h2⟩ := h
  exact ⟨s, e, hr.mono hR hC hnew, h1, h2⟩

theorem Covered.present (h : Covered R C i) : i ∈ R := by
  obtain ⟨s, e, hr, h1, h2⟩ := h
  exact hr.present i h1 h2

/-- When everything up to a closing index `m` is present, every index up to `m`
lies in a ready run that ends at or before `m`. -/
theorem exists_run_of_le {m : ℕ} (hR : ∀ i ≤ m, i ∈ R) (hm : m ∈ C) (hi : i ≤ m) :
    ∃ s e, IsRun R C s e ∧ s ≤ i ∧ i ≤ e ∧ e ≤ m := by
  -- the run ends at the first closing index from `i` on
  have hex : ∃ e, i ≤ e ∧ e ∈ C := ⟨m, hi, hm⟩
  let e := Nat.find hex
  have he : i ≤ e ∧ e ∈ C := Nat.find_spec hex
  have hem : e ≤ m := Nat.find_min' hex ⟨hi, hm⟩
  have hgap : ∀ j, i ≤ j → j < e → j ∉ C := fun j h1 h2 hc => Nat.find_min hex h2 ⟨h1, hc⟩
  -- and starts after the last closing index below `i`
  let below := (Finset.range i).filter (· ∈ C)
  have hpresent : ∀ {s}, ∀ j, s ≤ j → j ≤ e → j ∈ R := fun j _ h2 => hR j (h2.trans hem)
  by_cases hb : below.Nonempty
  · let p := below.max' hb
    have hp := Finset.mem_filter.mp (below.max'_mem hb)
    have hpi : p < i := Finset.mem_range.mp hp.1
    refine ⟨p + 1, e, ⟨by omega, hpresent, he.2, ?_, .inr (by simpa using hp.2)⟩, by omega, he.1, hem⟩
    intro j h1 h2 hc
    by_cases hji : j < i
    · have := below.le_max' j (Finset.mem_filter.mpr ⟨Finset.mem_range.mpr hji, hc⟩)
      omega
    · exact hgap j (by omega) h2 hc
  · refine ⟨0, e, ⟨by omega, hpresent, he.2, ?_, .inl rfl⟩, by omega, he.1, hem⟩
    intro j h1 h2 hc
    by_cases hji : j < i
    · exact hb ⟨j, Finset.mem_filter.mpr ⟨Finset.mem_range.mpr hji, hc⟩⟩
    · exact hgap j (by omega) h2 hc

theorem Lists.nil : Lists ∅ ∅ [] :=
  ⟨List.nodup_nil, fun s e => ⟨by simp, fun h => absurd h.closed (by simp)⟩⟩

theorem Lists.append {out new : List (ℕ × ℕ)} (h : Lists R C out) (hR : R ⊆ R') (hC : C ⊆ C')
    (hnew : ∀ i ∈ C', i ∈ R → i ∈ C) (hnd : new.Nodup)
    (hmem : ∀ s e, (s, e) ∈ new ↔ IsRun R' C' s e ∧ ¬ IsRun R C s e) : Lists R' C' (out ++ new) where
  nodup := by
    refine List.nodup_append.mpr ⟨h.nodup, hnd, ?_⟩
    intro ⟨s, e⟩ ho ⟨s', e'⟩ hn heq
    rw [heq] at ho
    exact ((hmem s' e').mp hn).2 ((h.mem_iff s' e').mp ho)
  mem_iff s e := by
    rw [List.mem_append, h.mem_iff, hmem]
    constructor
    · intro h
      rcases h with ho | hn
      · exact ho.mono hR hC hnew
      · exact hn.1
    · intro hr
      by_cases ho : IsRun R C s e
      · exact .inl ho
      · exact .inr ⟨hr, ho⟩

theorem Lists.disjoint {out : List (ℕ × ℕ)} (h : Lists R C out) :
    out.Pairwise fun a b => Disjoint (Finset.Icc a.1 a.2) (Finset.Icc b.1 b.2) := by
  refine h.nodup.imp_of_mem fun {a b} ha hb hne => ?_
  rw [Finset.disjoint_left]
  intro i hia hib
  have hia := Finset.mem_Icc.mp hia
  have hib := Finset.mem_Icc.mp hib
  have hu := ((h.mem_iff a.1 a.2).mp ha).unique ((h.mem_iff b.1 b.2).mp hb) hia.1 hia.2 hib.1 hib.2
  exact hne (Prod.ext hu.1 hu.2)

end Runs
