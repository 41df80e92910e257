import Deshred.Lib.Scanner

/-!
# Scanners on a string that is cut short

`Cuts p` says that on a prefix of a string `p` finds what it finds on the whole, or runs
out of symbols. With a codec this leaves no other case: it finds it exactly when the
prefix holds the encoding. `scanAll` applies a scanner again and again and stops at the
first error.
-/

namespace Scanner
variable {ε β α γ : Type} {truncated : ℕ → ε}

/-- The first `k` symbols only. -/
def cut (c : Cursor β) (k : ℕ) : Cursor β := ⟨c.bytes.take k, c.offset⟩

/-- On a prefix, the same or truncated. -/
def Cuts (truncated : ℕ → ε) (p : Scanner ε β α) : Prop :=
  ∀ c a c' k, c.offset ≤ k → p.run c = .ok (a, c') → c'.offset ≤ k ∧ p.run (cut c k) = .ok (a, cut c' k) ∨
    ∃ o, p.run (cut c k) = .error (truncated o)

theorem Cuts.pure (a : α) : Cuts truncated (Pure.pure a : Scanner ε β α) := by
  intro c b c' k hk h
  cases h
  exact .inl ⟨hk, rfl⟩

theorem Cuts.fail (e : ε) : Cuts truncated (fail e : Scanner ε β α) := by
  intro c a c' k hk h
  cases h

theorem Cuts.offset : Cuts truncated (offset : Scanner ε β ℕ) := by
  intro c n c' k hk h
  cases h
  exact .inl ⟨hk, rfl⟩

theorem run_take (n : ℕ) (c : Cursor β) : (take truncated n).run c =
    if c.offset + n ≤ c.bytes.length then .ok ((c.bytes.drop c.offset).take n, ⟨c.bytes, c.offset + n⟩)
    else .error (truncated c.offset) := rfl

theorem Cuts.take (n : ℕ) : Cuts truncated (take truncated n : Scanner ε β (List β)) := by
  intro c s c' k hk h
  have hlen : (cut c k).bytes.length = min k c.bytes.length := List.length_take
  have hoffset : (cut c k).offset = c.offset := rfl
  rw [run_take] at h
  split at h
  · rename_i hin
    cases h
    rw [run_take, hlen, hoffset]
    by_cases hfits : c.offset + n ≤ k
    · left
      have hsame : ((cut c k).bytes.drop c.offset).take n = (c.bytes.drop c.offset).take n := by
        rw [cut, List.drop_take, List.take_take, Nat.min_eq_left (by omega)]
      rw [if_pos (by omega), hsame]
      exact ⟨hfits, rfl⟩
    · exact .inr ⟨c.offset, if_neg (by omega)⟩
  · contradiction

theorem Cuts.peek : Cuts truncated (peek truncated : Scanner ε β β) := by
  intro c b c' k hk h
  obtain ⟨rfl, hb⟩ := run_peek_ok.mp h
  by_cases hlt : c'.offset < k
  · left
    refine ⟨hk, run_peek_ok.mpr ⟨rfl, ?_⟩⟩
    rw [cut, List.getElem?_take_of_lt hlt]
    exact hb
  · right
    refine ⟨c'.offset, ?_⟩
    have hnone : (c'.bytes.take k)[c'.offset]? = none := by
      rw [List.getElem?_eq_none_iff, List.length_take]
      omega
    exact run_peek_none hnone

theorem Cuts.spanFrom (start : ℕ) : Cuts truncated (spanFrom start : Scanner ε β (List β)) := by
  intro c s c' k hk h
  cases h
  left
  refine ⟨hk, ?_⟩
  have hsame : ((cut c k).bytes.drop start).take (c.offset - start) = (c.bytes.drop start).take (c.offset - start) := by
    rw [cut, List.drop_take, List.take_take, Nat.min_eq_left (by omega)]
  exact congrArg (fun s => Except.ok (s, _)) hsame

theorem Cuts.bind {p : Scanner ε β α} {f : α → Scanner ε β γ} (hp : Cuts truncated p)
    (hf : ∀ a, Cuts truncated (f a)) : Cuts truncated (p >>= f) := by
  intro c g c' k hk h
  obtain ⟨a, c₁, h1, h2⟩ := run_bind_ok.mp h
  rcases hp c a c₁ k hk h1 with ⟨hk1, hp1⟩ | ⟨o, hp1⟩
  · rcases hf a c₁ g c' k hk1 h2 with ⟨hk2, hp2⟩ | ⟨o, hp2⟩
    · exact .inl ⟨hk2, run_bind_ok.mpr ⟨a, _, hp1, hp2⟩⟩
    · right
      refine ⟨o, ?_⟩
      rw [StateT.run_bind, hp1]
      exact hp2
  · right
    refine ⟨o, ?_⟩
    rw [StateT.run_bind, hp1]
    rfl

theorem Cuts.map {p : Scanner ε β α} (hp : Cuts truncated p) (f : α → γ) : Cuts truncated (f <$> p) := by
  rw [map_eq_pure_bind]
  exact hp.bind fun a => Cuts.pure (f a)

theorem Cuts.repeatN {p : Scanner ε β Unit} (hp : Cuts truncated p) (n : ℕ) : Cuts truncated (repeatN p n) := by
  induction n with
  | zero => exact Cuts.pure ()
  | succ n ih => exact hp.bind fun _ => ih

theorem Cuts.chunks (k n : ℕ) : Cuts truncated (chunks truncated k n : Scanner ε β (List (List β))) :=
  (Cuts.take (n * k)).map _

theorem cut_append (before rest : List β) {k : ℕ} (hk : before.length ≤ k) :
    cut ⟨before ++ rest, before.length⟩ k = ⟨before ++ rest.take (k - before.length), before.length⟩ := by
  rw [cut, List.take_append, List.take_of_length_le hk]

/-- On a prefix a codec finds what the prefix holds whole, and nothing of what it does not. -/
theorem Codec.run_cut {p : Scanner ε β α} {enc : α → List β} {V : α → Prop} (hp : Codec p enc V)
    (hcuts : Cuts truncated p) {a : α} (ha : V a) (before after : List β) {k : ℕ} (hk : before.length ≤ k) :
    ((before ++ enc a).length ≤ k → p.run (cut ⟨before ++ (enc a ++ after), before.length⟩ k) =
      .ok (a, cut ⟨before ++ (enc a ++ after), (before ++ enc a).length⟩ k)) ∧
    (k < (before ++ enc a).length →
      ∃ o, p.run (cut ⟨before ++ (enc a ++ after), before.length⟩ k) = .error (truncated o)) := by
  have hrun := hp.reads a ha before after
  constructor
  · intro hfits
    have hrest : (enc a ++ after).take (k - before.length) =
        enc a ++ after.take (k - before.length - (enc a).length) := by
      rw [List.length_append] at hfits
      rw [List.take_append, List.take_of_length_le (by omega)]
    rw [cut_append before _ hk, hrest, hp.reads a ha before, cut, List.take_append, List.take_of_length_le hk, hrest]
  · intro hlong
    rcases hcuts _ a _ k hk hrun with ⟨hle, _⟩ | hcut
    · exact absurd hle (Nat.not_le.mpr hlong)
    · exact hcut

/-! ### Again and again -/

/-- At most `n` times; the first error ends it. -/
def scanAll (p : Scanner ε β α) : ℕ → Cursor β → List (Except ε α)
  | 0, _ => []
  | n + 1, c =>
    match p.run c with
    | .ok (a, c') => .ok a :: scanAll p n c'
    | .error e => [.error e]

theorem scanAll_ok {p : Scanner ε β α} {n : ℕ} {c c' : Cursor β} {a : α} (h : p.run c = .ok (a, c')) :
    scanAll p (n + 1) c = .ok a :: scanAll p n c' := by
  rw [scanAll, h]

theorem scanAll_error {p : Scanner ε β α} {n : ℕ} {c : Cursor β} {e : ε} (h : p.run c = .error e) :
    scanAll p (n + 1) c = [.error e] := by
  rw [scanAll, h]

variable {p : Scanner ε β α} {enc : α → List β} {V : α → Prop}

theorem Codec.scanAll (hp : Codec p enc V) {as : List α} (hV : ∀ a ∈ as, V a) (before after : List β) :
    scanAll p as.length ⟨before ++ (as.flatMap enc ++ after), before.length⟩ = as.map .ok := by
  induction as generalizing before with
  | nil => rfl
  | cons a as ih =>
    have hread := hp.reads a (hV a List.mem_cons_self) before (as.flatMap enc ++ after)
    have hrest := ih (fun b hb => hV b (List.mem_cons_of_mem _ hb)) (before ++ enc a)
    rw [List.append_assoc before] at hrest
    rw [List.flatMap_cons, List.append_assoc (enc a), List.length_cons, scanAll_ok hread, hrest, List.map_cons]

/-- What was found without an error stands there, one encoding behind the other. -/
theorem Codec.scanAll_exact (hp : Codec p enc V) {n : ℕ} {as : List α} {before rest : List β}
    (h : Scanner.scanAll p n ⟨before ++ rest, before.length⟩ = as.map .ok) :
    as.length = n ∧ (∀ a ∈ as, V a) ∧ ∃ after, rest = as.flatMap enc ++ after := by
  induction n generalizing as before rest with
  | zero =>
    obtain rfl : as = [] := List.map_eq_nil_iff.mp h.symm
    exact ⟨rfl, nofun, rest, rfl⟩
  | succ n ih =>
    cases hrun : p.run ⟨before ++ rest, before.length⟩ with
    | error e =>
      rw [scanAll_error hrun] at h
      cases as with
      | nil => contradiction
      | cons a as => cases h
    | ok r =>
      obtain ⟨a, c'⟩ := r
      rw [scanAll_ok hrun] at h
      cases as with
      | nil => contradiction
      | cons b as =>
        rw [List.map_cons, List.cons.injEq, Except.ok.injEq] at h
        obtain ⟨rfl, h⟩ := h
        obtain ⟨ha, after, rfl, rfl⟩ := hp.exact before rest a c' trivial hrun
        rw [← List.append_assoc] at h
        obtain ⟨hlen, hall, after', rfl⟩ := ih h
        refine ⟨by rw [List.length_cons, hlen], fun x hx => ?_, after', ?_⟩
        · rcases List.mem_cons.mp hx with rfl | hx
          · exact ha
          · exact hall x hx
        · rw [List.flatMap_cons, List.append_assoc]

/-- What was found at one place stands behind what was found before it. -/
theorem Codec.getElem?_scanAll (hp : Codec p enc V) {n j : ℕ} {a : α} {before rest : List β}
    (h : (Scanner.scanAll p n ⟨before ++ rest, before.length⟩)[j]? = some (.ok a)) :
    V a ∧ ∃ (as : List α) (after : List β), rest = as.flatMap enc ++ (enc a ++ after) ∧ (∀ b ∈ as, V b) ∧
      as.length = j ∧ j < n := by
  induction n generalizing j before rest with
  | zero => contradiction
  | succ n ih =>
    cases hrun : p.run ⟨before ++ rest, before.length⟩ with
    | error e =>
      rw [scanAll_error hrun] at h
      cases j with
      | zero => cases h
      | succ j => contradiction
    | ok r =>
      obtain ⟨b, c'⟩ := r
      rw [scanAll_ok hrun] at h
      obtain ⟨hb, after, rfl, rfl⟩ := hp.exact before rest b c' trivial hrun
      cases j with
      | zero =>
        rw [List.getElem?_cons_zero, Option.some.injEq, Except.ok.injEq] at h
        rw [← h]
        exact ⟨hb, [], after, rfl, nofun, rfl, Nat.zero_lt_succ n⟩
      | succ j =>
        rw [List.getElem?_cons_succ, ← List.append_assoc] at h
        obtain ⟨ha, as, after', rfl, hall, hlen, hj⟩ := ih h
        refine ⟨ha, b :: as, after', ?_, List.forall_mem_cons.mpr ⟨hb, hall⟩, by rw [List.length_cons, hlen], by omega⟩
        rw [List.flatMap_cons, List.append_assoc]

/-- Whatever was found was found by one run of the scanner on the same string. -/
theorem Codec.mem_scanAll (hp : Codec p enc V) {n : ℕ} {a : α} {before rest : List β}
    (h : .ok a ∈ Scanner.scanAll p n ⟨before ++ rest, before.length⟩) :
    V a ∧ ∃ before' after, before ++ rest = before' ++ (enc a ++ after) ∧ before.length ≤ before'.length := by
  obtain ⟨j, hj⟩ := List.mem_iff_getElem?.mp h
  obtain ⟨ha, as, after, rfl, _⟩ := hp.getElem?_scanAll hj
  refine ⟨ha, before ++ as.flatMap enc, after, (List.append_assoc ..).symm, ?_⟩
  rw [List.length_append]
  exact Nat.le_add_right _ _

/-- A cut stream yields the items it holds whole, and an error where one is cut. -/
theorem Codec.scanAll_cut (hp : Codec p enc V) (hcuts : Cuts truncated p) {as : List α} (hV : ∀ a ∈ as, V a)
    (before after : List β) {k : ℕ} (hk : before.length ≤ k) :
    ((before ++ as.flatMap enc).length ≤ k →
      Scanner.scanAll p as.length (cut ⟨before ++ (as.flatMap enc ++ after), before.length⟩ k) = as.map .ok) ∧
    (k < (before ++ as.flatMap enc).length → ∃ j < as.length, ∃ o,
      (before ++ (as.take j).flatMap enc).length ≤ k ∧ k < (before ++ (as.take (j + 1)).flatMap enc).length ∧
      Scanner.scanAll p as.length (cut ⟨before ++ (as.flatMap enc ++ after), before.length⟩ k) =
        (as.take j).map .ok ++ [.error (truncated o)]) := by
  induction as generalizing before with
  | nil =>
    refine ⟨fun _ => rfl, fun hlt => ?_⟩
    rw [List.flatMap_nil, List.append_nil] at hlt
    exact absurd hk (Nat.not_le.mpr hlt)
  | cons a as ih =>
    have ha := hV a List.mem_cons_self
    obtain ⟨hwhole, hpart⟩ := hp.run_cut hcuts ha before (as.flatMap enc ++ after) hk
    have hassoc : before ++ ((a :: as).flatMap enc ++ after) = before ++ (enc a ++ (as.flatMap enc ++ after)) := by
      rw [List.flatMap_cons, List.append_assoc (enc a)]
    rw [hassoc]
    by_cases hfits : (before ++ enc a).length ≤ k
    · obtain ⟨hall, hsome⟩ := ih (fun b hb => hV b (List.mem_cons_of_mem _ hb)) (before ++ enc a) hfits
      rw [List.append_assoc before (enc a) (as.flatMap enc ++ after)] at hall hsome
      rw [List.length_cons, scanAll_ok (hwhole hfits), List.flatMap_cons, ← List.append_assoc]
      constructor
      · intro hle
        rw [hall hle, List.map_cons]
      · intro hlt
        obtain ⟨j, hj, o, hge, hlt', hscan⟩ := hsome hlt
        refine ⟨j + 1, by omega, o, ?_, ?_, ?_⟩
        · rwa [List.take_succ_cons, List.flatMap_cons, ← List.append_assoc]
        · rwa [List.take_succ_cons, List.flatMap_cons, ← List.append_assoc]
        · rw [hscan, List.take_succ_cons, List.map_cons, List.cons_append]
    · obtain ⟨o, herr⟩ := hpart (Nat.not_le.mp hfits)
      rw [List.length_cons, scanAll_error herr]
      refine ⟨fun hle => ?_, fun _ => ⟨0, by omega, o, ?_, ?_, rfl⟩⟩
      · rw [List.flatMap_cons, ← List.append_assoc, List.length_append] at hle
        omega
      · simpa using hk
      · simpa using hfits

end Scanner
