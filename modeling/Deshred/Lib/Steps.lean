import Mathlib.Data.Finset.Union
import Mathlib.Data.List.Induction

/-!
# Runs of a fallible step function

A component that consumes inputs one at a time, keeps a state and emits outputs
is a function `step : σ → ι → Except ε (σ × List ο)`. `runAll` feeds it a whole
list of inputs; the rules below reduce a statement about every run to one about
a single step.
-/

namespace Steps
variable {σ ι ο ε : Type}

/-- Feed all inputs, left to right; the first failing step ends the run. -/
def runAll (step : σ → ι → Except ε (σ × List ο)) : σ → List ι → Except ε (σ × List ο)
  | s, [] => .ok (s, [])
  | s, i :: is =>
    match step s i with
    | .error e => .error e
    | .ok (s', out) =>
      match runAll step s' is with
      | .error e => .error e
      | .ok (s'', outs) => .ok (s'', out ++ outs)

variable {step : σ → ι → Except ε (σ × List ο)}

@[simp] theorem runAll_nil (s : σ) : runAll step s [] = .ok (s, []) := rfl

theorem runAll_cons_ok {s s'' : σ} {i : ι} {is : List ι} {os : List ο} :
    runAll step s (i :: is) = .ok (s'', os) ↔
      ∃ s' out outs, step s i = .ok (s', out) ∧ runAll step s' is = .ok (s'', outs) ∧
        os = out ++ outs := by
  cases hs : step s i with
  | error e => simp [runAll, hs]
  | ok r =>
    obtain ⟨s', out⟩ := r
    cases hr : runAll step s' is with
    | error e => simp [runAll, hs, hr]
    | ok q =>
      obtain ⟨t, outs⟩ := q
      constructor
      · intro h
        simp only [runAll, hs, hr, Except.ok.injEq, Prod.mk.injEq] at h
        exact ⟨s', out, outs, rfl, by rw [hr, h.1], h.2.symm⟩
      · rintro ⟨s₁, out₁, outs₁, h₁, h₂, rfl⟩
        simp only [Except.ok.injEq, Prod.mk.injEq] at h₁
        obtain ⟨rfl, rfl⟩ := h₁
        rw [hr] at h₂
        simp only [Except.ok.injEq, Prod.mk.injEq] at h₂
        simp [runAll, hs, hr, h₂.1, h₂.2]

theorem runAll_append_ok {s s'' : σ} {is js : List ι} {os : List ο} :
    runAll step s (is ++ js) = .ok (s'', os) ↔
      ∃ s' out outs, runAll step s is = .ok (s', out) ∧ runAll step s' js = .ok (s'', outs) ∧
        os = out ++ outs := by
  induction is generalizing s os with
  | nil => simp
  | cons i is ih =>
    simp only [List.cons_append, runAll_cons_ok, ih]
    constructor
    · rintro ⟨s₁, o₁, _, h₁, ⟨s₂, o₂, o₃, h₂, h₃, rfl⟩, rfl⟩
      exact ⟨s₂, o₁ ++ o₂, o₃, ⟨s₁, o₁, o₂, h₁, h₂, rfl⟩, h₃, by simp⟩
    · rintro ⟨s₂, _, o₃, ⟨s₁, o₁, o₂, h₁, h₂, rfl⟩, h₃, rfl⟩
      exact ⟨s₁, o₁, o₂ ++ o₃, h₁, ⟨s₂, o₂, o₃, h₂, h₃, rfl⟩, by simp⟩

theorem runAll_singleton_ok {s s' : σ} {i : ι} {os : List ο} :
    runAll step s [i] = .ok (s', os) ↔ step s i = .ok (s', os) := by
  rw [runAll_cons_ok]
  constructor
  · rintro ⟨t, out, outs, h, ht, rfl⟩
    simp only [runAll_nil, Except.ok.injEq, Prod.mk.injEq] at ht
    obtain ⟨rfl, rfl⟩ := ht
    simpa using h
  · intro h
    exact ⟨s', os, [], h, rfl, by simp⟩

theorem runAll_snoc_ok {s s'' : σ} {is : List ι} {i : ι} {os : List ο} :
    runAll step s (is ++ [i]) = .ok (s'', os) ↔
      ∃ s' out outs, runAll step s is = .ok (s', out) ∧ step s' i = .ok (s'', outs) ∧
        os = out ++ outs := by
  simp only [runAll_append_ok, runAll_singleton_ok]

/-- What one step preserves, together with the inputs consumed and the outputs
emitted so far, holds after every run. -/
theorem runAll_induct {P : List ι → σ → List ο → Prop} {s₀ : σ} (init : P [] s₀ [])
    (next : ∀ is s os i s' out, runAll step s₀ is = .ok (s, os) → P is s os →
      step s i = .ok (s', out) → P (is ++ [i]) s' (os ++ out))
    {is : List ι} {s : σ} {os : List ο} (h : runAll step s₀ is = .ok (s, os)) : P is s os := by
  induction is using List.reverseRecOn generalizing s os with
  | nil =>
    simp only [runAll_nil, Except.ok.injEq, Prod.mk.injEq] at h
    obtain ⟨rfl, rfl⟩ := h
    exact init
  | append_singleton is i ih =>
    obtain ⟨s', out, outs, h₁, h₂, rfl⟩ := runAll_snoc_ok.mp h
    exact next is s' out i s outs h₁ (ih h₁) h₂

/-- Inputs that arrive once each: what holds of those that arrived grows with every step. -/
theorem runAll_distinct {κ : Type} [DecidableEq κ] {sent : κ → ι} {R : Finset κ → σ → List ο → Prop}
    (grow : ∀ P s os k, k ∉ P → R P s os → ∃ s' out, step s (sent k) = .ok (s', out) ∧ R (insert k P) s' (os ++ out))
    {order : List κ} (hnd : order.Nodup) {P : Finset κ} (hP : ∀ k ∈ order, k ∉ P) {s : σ} {os : List ο} (h : R P s os) :
    ∃ s' out, runAll step s (order.map sent) = .ok (s', out) ∧ R (P ∪ order.toFinset) s' (os ++ out) := by
  induction order generalizing P s os with
  | nil => exact ⟨s, [], rfl, by simpa using h⟩
  | cons k order ih =>
    obtain ⟨hk, hnd⟩ := List.nodup_cons.mp hnd
    obtain ⟨s₁, out₁, hstep, h₁⟩ := grow P s os k (hP k (List.mem_cons_self ..)) h
    have hP' : ∀ j ∈ order, j ∉ insert k P := by
      intro j hj
      rw [Finset.mem_insert, not_or]
      exact ⟨fun he => hk (he ▸ hj), hP j (List.mem_cons_of_mem _ hj)⟩
    obtain ⟨s', out', hrun, h'⟩ := ih hnd hP' h₁
    refine ⟨s', out₁ ++ out', runAll_cons_ok.mpr ⟨s₁, out₁, out', hstep, hrun, rfl⟩, ?_⟩
    rw [List.toFinset_cons, Finset.union_insert, ← Finset.insert_union, ← List.append_assoc]
    exact h'

/-- A run cannot fail when an invariant, kept by every step on the inputs of
interest, makes each step succeed. -/
theorem runAll_total {I : σ → Prop} {Q : ι → Prop} {s : σ} (hs : I s)
    (next : ∀ s i, I s → Q i → ∃ s' out, step s i = .ok (s', out) ∧ I s')
    (is : List ι) (hq : ∀ i ∈ is, Q i) : ∃ s' os, runAll step s is = .ok (s', os) ∧ I s' := by
  induction is generalizing s with
  | nil => exact ⟨s, [], rfl, hs⟩
  | cons i is ih =>
    obtain ⟨t, out, ht, hI⟩ := next s i hs (hq i (List.mem_cons_self ..))
    obtain ⟨s', os, hr, hI'⟩ := ih hI (fun j hj => hq j (List.mem_cons_of_mem _ hj))
    exact ⟨s', out ++ os, runAll_cons_ok.mpr ⟨t, out, os, ht, hr, rfl⟩, hI'⟩

/-- The two outcomes are the same failure, or the same outputs and related states. -/
def Follows (R : σ → σ → Prop) : Except ε (σ × List ο) → Except ε (σ × List ο) → Prop
  | .error e, r => r = .error e
  | .ok (s, out), r => ∃ t, r = .ok (t, out) ∧ R s t

theorem Follows.ok {R : σ → σ → Prop} {r r' : Except ε (σ × List ο)} (h : Follows R r r') {s : σ} {out : List ο}
    (hr : r = .ok (s, out)) : ∃ t, r' = .ok (t, out) ∧ R s t := by
  rw [hr] at h
  exact h

theorem Follows.error {R : σ → σ → Prop} {r r' : Except ε (σ × List ο)} (h : Follows R r r') {e : ε}
    (hr : r = .error e) : r' = .error e := by
  rw [hr] at h
  exact h

theorem Follows.cons {R : σ → σ → Prop} {s t : σ} {i : ι} {is js : List ι}
    (hstep : Follows R (step s i) (step t i))
    (hrest : ∀ s' t' out, step s i = .ok (s', out) → R s' t' → Follows R (runAll step s' is) (runAll step t' js)) :
    Follows R (runAll step s (i :: is)) (runAll step t (i :: js)) := by
  cases hs : step s i with
  | error e =>
    have ht := hstep.error hs
    simp only [runAll, hs, ht, Follows]
  | ok r =>
    obtain ⟨s', out⟩ := r
    obtain ⟨t', ht, hR⟩ := hstep.ok hs
    have hfollow := hrest s' t' out hs hR
    cases hr : runAll step s' is with
    | error e =>
      have hr' := hfollow.error hr
      simp only [runAll, hs, ht, hr, hr', Follows]
    | ok q =>
      obtain ⟨s'', outs⟩ := q
      obtain ⟨t'', hr', hR'⟩ := hfollow.ok hr
      simp only [runAll, hs, ht, hr, hr', Follows]
      exact ⟨t'', rfl, hR'⟩

/-- Runs on the same inputs follow each other when their steps do. -/
theorem runAll_follows {R : σ → σ → Prop} (follow : ∀ s t i, R s t → Follows R (step s i) (step t i)) {s t : σ}
    (h : R s t) (is : List ι) : Follows R (runAll step s is) (runAll step t is) := by
  induction is generalizing s t with
  | nil => exact ⟨t, rfl, h⟩
  | cons i is ih => exact Follows.cons (follow s t i h) fun _ _ _ _ hR => ih hR

/-- What follows has the same outputs. -/
theorem Follows.outputs {R : σ → σ → Prop} {r r' : Except ε (σ × List ο)} (h : Follows R r r') :
    r'.map Prod.snd = r.map Prod.snd := by
  cases r with
  | error e =>
    have he : r' = .error e := h
    rw [he]
  | ok q =>
    obtain ⟨t, ht, _⟩ := h
    rw [ht]
    rfl

/-- Inputs that leave no trace can be deleted from a run: those marked `false` here,
each of which meets the state it finds in the way `D` says. -/
theorem runAll_delete {R : σ → σ → Prop} {I : σ → Prop} {D : σ → ι → Prop}
    (inv : ∀ s i s' out, I s → step s i = .ok (s', out) → I s')
    (follow : ∀ s t i, I s → R s t → Follows R (step s i) (step t i))
    (skip : ∀ s t i, I s → R s t → D s i → ∃ s', step s i = .ok (s', []) ∧ R s' t)
    {s t : σ} (hI : I s) (hR : R s t) (marked : List (ι × Bool))
    (h : ∀ before i after s' out, marked = before ++ (i, false) :: after →
      runAll step s (before.map Prod.fst) = .ok (s', out) → D s' i) :
    Follows R (runAll step s (marked.map Prod.fst)) (runAll step t ((marked.filter Prod.snd).map Prod.fst)) := by
  induction marked generalizing s t with
  | nil => exact ⟨t, rfl, hR⟩
  | cons m marked ih =>
    obtain ⟨i, flag⟩ := m
    have hrest : ∀ s' out, step s i = .ok (s', out) → ∀ before j after s'' out', marked = before ++ (j, false) :: after →
        runAll step s' (before.map Prod.fst) = .ok (s'', out') → D s'' j := by
      intro s' out hs before j after s'' out' heq hrun
      exact h ((i, flag) :: before) j after s'' (out ++ out') (by rw [heq]; rfl)
        (runAll_cons_ok.mpr ⟨s', out, out', hs, hrun, rfl⟩)
    cases flag with
    | true =>
      exact Follows.cons (follow s t i hI hR) fun s' t' out hs hR' => ih (inv s i s' out hI hs) hR' (hrest s' out hs)
    | false =>
      obtain ⟨s', hs, hR'⟩ := skip s t i hI hR (h [] i marked s [] rfl rfl)
      have hfollow := ih (inv s i s' [] hI hs) hR' (hrest s' [] hs)
      cases hr : runAll step s' (marked.map Prod.fst) with
      | error e =>
        simp only [List.map_cons, runAll, hs, hr, Follows]
        exact hfollow.error hr
      | ok q =>
        obtain ⟨s'', outs⟩ := q
        rw [hr] at hfollow
        simp only [List.map_cons, runAll, hs, hr, List.nil_append]
        exact hfollow

/-- At some point of the run an input met the state in the way `Q` says. -/
def Occurs (step : σ → ι → Except ε (σ × List ο)) (s₀ : σ) (Q : σ → ι → Prop) (is : List ι) : Prop :=
  ∃ before i after s os, is = before ++ i :: after ∧ runAll step s₀ before = .ok (s, os) ∧ Q s i

theorem occurs_snoc {Q : σ → ι → Prop} {s₀ s : σ} {is : List ι} {i : ι} {os : List ο}
    (hrun : runAll step s₀ is = .ok (s, os)) :
    Occurs step s₀ Q (is ++ [i]) ↔ Occurs step s₀ Q is ∨ Q s i := by
  constructor
  · intro ⟨before, j, after, s', os', heq, hbefore, hQ⟩
    cases after using List.reverseRecOn with
    | nil =>
      obtain ⟨rfl, hj⟩ := List.append_inj' heq rfl
      obtain rfl : i = j := by simpa using hj
      rw [hrun, Except.ok.injEq, Prod.mk.injEq] at hbefore
      rw [hbefore.1]
      exact .inr hQ
    | append_singleton after k =>
      have heq' : is ++ [i] = (before ++ j :: after) ++ [k] := by simpa using heq
      exact .inl ⟨before, j, after, s', os', (List.append_inj' heq' rfl).1, hbefore, hQ⟩
  · intro h
    rcases h with ⟨before, j, after, s', os', rfl, hbefore, hQ⟩ | hQ
    · exact ⟨before, j, after ++ [i], s', os', by simp, hbefore, hQ⟩
    · exact ⟨is, i, [], s, os, rfl, hrun, hQ⟩

theorem not_occurs_nil {Q : σ → ι → Prop} {s₀ : σ} : ¬ Occurs step s₀ Q [] := by
  intro ⟨before, i, after, s, os, heq, _⟩
  simp at heq

/-! ### Two runs on the same inputs -/

/-- What each step of two runs on the same inputs preserves holds after all of them,
when no step fails. -/
theorem runAll_both {Q : ι → Prop} {P : List ι → σ → List ο → σ → List ο → Prop} {s₀ t₀ : σ} (init : P [] s₀ [] t₀ [])
    (next : ∀ is s os t os' i, runAll step s₀ is = .ok (s, os) → runAll step t₀ is = .ok (t, os') →
      P is s os t os' → Q i → ∃ s' out t' out', step s i = .ok (s', out) ∧ step t i = .ok (t', out') ∧
        P (is ++ [i]) s' (os ++ out) t' (os' ++ out'))
    (is : List ι) (hq : ∀ i ∈ is, Q i) :
    ∃ s os t os', runAll step s₀ is = .ok (s, os) ∧ runAll step t₀ is = .ok (t, os') ∧ P is s os t os' := by
  induction is using List.reverseRecOn with
  | nil => exact ⟨s₀, [], t₀, [], rfl, rfl, init⟩
  | append_singleton is i ih =>
    obtain ⟨s, os, t, os', hs, ht, hP⟩ := ih fun j hj => hq j (by simp [hj])
    obtain ⟨s', out, t', out', hs', ht', hP'⟩ := next is s os t os' i hs ht hP (hq i (by simp))
    exact ⟨s', os ++ out, t', os' ++ out', runAll_snoc_ok.mpr ⟨s, os, out, hs, hs', rfl⟩,
      runAll_snoc_ok.mpr ⟨t, os', out', ht, ht', rfl⟩, hP'⟩

/-- At some point of the two runs an input met both states in the way `Q` says. -/
def OccursBoth (step : σ → ι → Except ε (σ × List ο)) (s₀ t₀ : σ) (Q : σ → σ → ι → Prop) (is : List ι) : Prop :=
  ∃ before i after s os t os', is = before ++ i :: after ∧ runAll step s₀ before = .ok (s, os) ∧
    runAll step t₀ before = .ok (t, os') ∧ Q s t i

theorem OccursBoth.snoc {Q : σ → σ → ι → Prop} {s₀ t₀ : σ} {is : List ι} (h : OccursBoth step s₀ t₀ Q is) (i : ι) :
    OccursBoth step s₀ t₀ Q (is ++ [i]) := by
  obtain ⟨before, j, after, s, os, t, os', rfl, hs, ht, hQ⟩ := h
  exact ⟨before, j, after ++ [i], s, os, t, os', by simp, hs, ht, hQ⟩

theorem OccursBoth.last {Q : σ → σ → ι → Prop} {s₀ t₀ s t : σ} {is : List ι} {os os' : List ο} {i : ι}
    (hs : runAll step s₀ is = .ok (s, os)) (ht : runAll step t₀ is = .ok (t, os')) (hQ : Q s t i) :
    OccursBoth step s₀ t₀ Q (is ++ [i]) := ⟨is, i, [], s, os, t, os', rfl, hs, ht, hQ⟩

/-- States that some input sequence leads to from `s₀`. -/
def Reachable (step : σ → ι → Except ε (σ × List ο)) (s₀ s : σ) : Prop :=
  ∃ is os, runAll step s₀ is = .ok (s, os)

theorem Reachable.invariant {I : σ → Prop} {s₀ s : σ} (hr : Reachable step s₀ s) (init : I s₀)
    (next : ∀ s i s' out, I s → step s i = .ok (s', out) → I s') : I s := by
  obtain ⟨is, os, h⟩ := hr
  exact runAll_induct (P := fun _ s _ => I s) init (fun _ s _ i s' out _ hI hs => next s i s' out hI hs) h

end Steps
