import Deshred.Lib.Truncation

/-!
# What a scanner must consume

`Consumes w p` says that `p` leaves the string alone, moves at least `w a` symbols forward
when it finds `a`, and never beyond the end. A loop over a body that consumes something ends
with the string, whatever count drives it.
-/

namespace Scanner
variable {ε β α γ : Type} {truncated : ℕ → ε}

/-- A run that finds `a` moves by `w a` or more, and stays inside the string. -/
def Consumes (w : α → ℕ) (p : Scanner ε β α) : Prop := ∀ c a c', p.run c = .ok (a, c') →
  c'.bytes = c.bytes ∧ c.offset + w a ≤ c'.offset ∧ c'.offset ≤ max c.offset c.bytes.length

theorem Consumes.pure {w : α → ℕ} {a : α} (hw : w a = 0) : Consumes w (Pure.pure a : Scanner ε β α) := by
  intro c b c' h
  cases h
  exact ⟨rfl, by omega, le_max_left _ _⟩

theorem Consumes.fail {w : α → ℕ} (e : ε) : Consumes w (fail e : Scanner ε β α) := by
  intro c a c' h
  cases h

theorem Consumes.offset : Consumes (fun _ => 0) (offset : Scanner ε β ℕ) := by
  intro c n c' h
  cases h
  exact ⟨rfl, le_rfl, le_max_left _ _⟩

theorem Consumes.spanFrom (start : ℕ) : Consumes (fun _ => 0) (spanFrom start : Scanner ε β (List β)) := by
  intro c s c' h
  cases h
  exact ⟨rfl, le_rfl, le_max_left _ _⟩

theorem Consumes.peek : Consumes (fun _ => 0) (peek truncated : Scanner ε β β) := by
  intro c b c' h
  obtain ⟨rfl, _⟩ := run_peek_ok.mp h
  exact ⟨rfl, le_rfl, le_max_left _ _⟩

theorem Consumes.take (n : ℕ) : Consumes (fun _ => n) (take truncated n : Scanner ε β (List β)) := by
  intro c s c' h
  rw [run_take] at h
  split at h
  · rename_i hin
    cases h
    exact ⟨rfl, le_rfl, hin.trans (le_max_right _ _)⟩
  · contradiction

theorem Consumes.mono {w u : α → ℕ} {p : Scanner ε β α} (hp : Consumes u p) (hle : ∀ a, w a ≤ u a) :
    Consumes w p := by
  intro c a c' h
  obtain ⟨hbytes, hmove, hin⟩ := hp c a c' h
  have hwu := hle a
  exact ⟨hbytes, by omega, hin⟩

/-- What the first step has consumed is no longer owed by the second. -/
theorem Consumes.bind {w : γ → ℕ} {u : α → ℕ} {p : Scanner ε β α} {f : α → Scanner ε β γ} (hp : Consumes u p)
    (hf : ∀ a, Consumes (fun g => w g - u a) (f a)) : Consumes w (p >>= f) := by
  intro c g c' h
  obtain ⟨a, c₁, h1, h2⟩ := run_bind_ok.mp h
  obtain ⟨hbytes, hmove, hin⟩ := hp c a c₁ h1
  obtain ⟨hbytes', hmove', hin'⟩ := hf a c₁ g c' h2
  rw [hbytes] at hin'
  dsimp only at hmove'
  exact ⟨hbytes'.trans hbytes, by omega, by omega⟩

theorem Consumes.skip {w : γ → ℕ} {u : α → ℕ} {p : Scanner ε β α} {f : α → Scanner ε β γ} (hp : Consumes u p)
    (hf : ∀ a, Consumes w (f a)) : Consumes w (p >>= f) := by
  apply hp.bind
  intro a
  exact (hf a).mono fun g => Nat.sub_le (w g) (u a)

theorem Consumes.map {w : γ → ℕ} {p : Scanner ε β α} {f : α → γ} (hp : Consumes (fun a => w (f a)) p) :
    Consumes w (f <$> p) := by
  intro c g c' h
  obtain ⟨a, hrun, rfl⟩ := run_map_ok.mp h
  exact hp c a c' hrun

theorem Consumes.chunks (k n : ℕ) : Consumes (fun _ => n * k) (chunks truncated k n : Scanner ε β (List (List β))) := by
  apply Consumes.map
  exact Consumes.take (n * k)

/-- Every round of a loop consumes, so the whole loop consumes as often. -/
theorem Consumes.repeatN {k : ℕ} {p : Scanner ε β Unit} (hp : Consumes (fun _ => k) p) (n : ℕ) :
    Consumes (fun _ => k * n) (repeatN p n) := by
  induction n with
  | zero => exact Consumes.pure rfl
  | succ n ih =>
    apply hp.bind
    intro _
    apply ih.mono
    intro _
    rw [Nat.mul_succ, Nat.add_sub_cancel]

/-- No run finds more than the string can hold. -/
theorem Consumes.le_length {w : α → ℕ} {p : Scanner ε β α} (hp : Consumes w p) {c c' : Cursor β} {a : α}
    (h : p.run c = .ok (a, c')) : w a ≤ c.bytes.length := by
  obtain ⟨_, hmove, hin⟩ := hp c a c' h
  omega

theorem Consumes.rounds_le {k n : ℕ} {p : Scanner ε β Unit} (hp : Consumes (fun _ => k) p) (hk : 0 < k)
    {c c' : Cursor β} (h : (Scanner.repeatN p n).run c = .ok ((), c')) : n ≤ c.bytes.length :=
  (Nat.le_mul_of_pos_left n hk).trans ((hp.repeatN n).le_length h)

/-- A stream of finds, then at most one error; together the finds fit into the string. -/
theorem Consumes.scanAll {w : α → ℕ} {p : Scanner ε β α} (hp : Consumes w p) (n : ℕ) (c : Cursor β)
    (hc : c.offset ≤ c.bytes.length) : ∃ (as : List α) (errs : List ε),
      Scanner.scanAll p n c = as.map .ok ++ errs.map .error ∧
      errs.length ≤ 1 ∧ c.offset + (as.map w).sum ≤ c.bytes.length := by
  induction n generalizing c with
  | zero => exact ⟨[], [], rfl, Nat.zero_le 1, hc⟩
  | succ n ih =>
    cases hrun : p.run c with
    | error e => exact ⟨[], [e], scanAll_error hrun, le_rfl, hc⟩
    | ok r =>
      obtain ⟨a, c'⟩ := r
      obtain ⟨hbytes, hmove, hin⟩ := hp c a c' hrun
      have hc' : c'.offset ≤ c'.bytes.length := by
        rw [hbytes]
        omega
      obtain ⟨as, errs, hscan, hone, hsum⟩ := ih c' hc'
      refine ⟨a :: as, errs, ?_, hone, ?_⟩
      · rw [scanAll_ok hrun, hscan, List.map_cons, List.cons_append]
      · rw [hbytes] at hsum
        rw [List.map_cons, List.sum_cons]
        omega

end Scanner
