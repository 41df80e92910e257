import Deshred.Lib.Steps

/-!
# One part of a system

A system holds many parts, and a step of it brings each part no, one or several inputs
of its own. `shareOf` lists the inputs that one part meets in a run. If every step of
the system is a run of the part on what the step brings, so is every run.
-/

namespace Steps
variable {σ τ ι κ ο ο' ε : Type} {step : σ → ι → Except ε (σ × List ο)} {part : τ → κ → Except ε (τ × List ο')}

/-- The inputs of one part in a run of the whole; `share` says what a step brings. -/
def shareOf (step : σ → ι → Except ε (σ × List ο)) (share : σ → ι → List κ) : σ → List ι → List κ
  | _, [] => []
  | s, i :: is =>
    match step s i with
    | .error _ => []
    | .ok (s', _) => share s i ++ shareOf step share s' is

theorem shareOf_cons {share : σ → ι → List κ} {s s' : σ} {i : ι} {out : List ο} (h : step s i = .ok (s', out))
    (is : List ι) : shareOf step share s (i :: is) = share s i ++ shareOf step share s' is := by
  simp only [shareOf, h]

theorem shareOf_snoc {share : σ → ι → List κ} {s s' s'' : σ} {is : List ι} {i : ι} {out outs : List ο}
    (hrun : runAll step s is = .ok (s', out)) (h : step s' i = .ok (s'', outs)) :
    shareOf step share s (is ++ [i]) = shareOf step share s is ++ share s' i := by
  induction is generalizing s out with
  | nil =>
    simp only [runAll_nil, Except.ok.injEq, Prod.mk.injEq] at hrun
    rw [hrun.1, List.nil_append, shareOf_cons h]
    simp [shareOf]
  | cons j is ih =>
    obtain ⟨s₁, out₁, outs₁, hstep, hrest, _⟩ := runAll_cons_ok.mp hrun
    rw [List.cons_append, shareOf_cons hstep, shareOf_cons hstep, ih hrest, List.append_assoc]

/-- What a part hands out in a run of the whole is what it hands out alone, on its share. -/
theorem runAll_share {R : σ → τ → Prop} {share : σ → ι → List κ} {pick : ο → Option ο'}
    (follow : ∀ s t i s' out, R s t → step s i = .ok (s', out) →
      ∃ t', runAll part t (share s i) = .ok (t', out.filterMap pick) ∧ R s' t')
    {s s' : σ} {t : τ} {is : List ι} {out : List ο} (h : R s t) (hrun : runAll step s is = .ok (s', out)) :
    ∃ t', runAll part t (shareOf step share s is) = .ok (t', out.filterMap pick) ∧ R s' t' := by
  induction is generalizing s t out with
  | nil =>
    simp only [runAll_nil, Except.ok.injEq, Prod.mk.injEq] at hrun
    obtain ⟨rfl, rfl⟩ := hrun
    exact ⟨t, rfl, h⟩
  | cons i is ih =>
    obtain ⟨s₁, out₁, outs, hstep, hrest, rfl⟩ := runAll_cons_ok.mp hrun
    obtain ⟨t₁, hpart, h₁⟩ := follow s t i s₁ out₁ h hstep
    obtain ⟨t', hparts, h'⟩ := ih h₁ hrest
    refine ⟨t', ?_, h'⟩
    rw [shareOf_cons hstep, List.filterMap_append]
    exact runAll_append_ok.mpr ⟨t₁, _, _, hpart, hparts, rfl⟩

/-- Inputs of one kind only: the part runs as the step that takes just these. -/
theorem runAll_map (f : ι → κ) (t : τ) (is : List ι) :
    runAll part t (is.map f) = runAll (fun t i => part t (f i)) t is := by
  induction is generalizing t with
  | nil => rfl
  | cons i is ih =>
    simp only [List.map_cons, runAll, ih]

end Steps
