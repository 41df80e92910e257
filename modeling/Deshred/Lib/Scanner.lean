import Mathlib.Algebra.GroupWithZero.Nat
import Mathlib.Data.List.SplitLengths

/-!
# Scanners

A scanner walks a cursor over a string and may fail. `Reads p seg a` says that `p` finds
`a` wherever `seg` stands; `Codec p enc V` says that `p` succeeds exactly on the encodings
of the values `V` allows. The rules build the codec of a `do` block from its steps.
-/

structure Cursor (β : Type) where
  bytes : List β
  offset : ℕ

/-- Fails with `ε` or moves the cursor. -/
abbrev Scanner (ε β α : Type) := StateT (Cursor β) (Except ε) α

namespace Scanner
variable {ε β α γ : Type}

def offset : Scanner ε β ℕ := fun c => .ok (c.offset, c)

/-- The next `n` symbols. -/
def take (truncated : ℕ → ε) (n : ℕ) : Scanner ε β (List β) := fun c =>
  if c.offset + n ≤ c.bytes.length then .ok ((c.bytes.drop c.offset).take n, ⟨c.bytes, c.offset + n⟩)
  else .error (truncated c.offset)

/-- The next symbol, which is not consumed. -/
def peek (truncated : ℕ → ε) : Scanner ε β β := fun c =>
  match c.bytes[c.offset]? with
  | some b => .ok (b, c)
  | none => .error (truncated c.offset)

def fail (e : ε) : Scanner ε β α := fun _ => .error e

/-- What was consumed since `start`. -/
def spanFrom (start : ℕ) : Scanner ε β (List β) := fun c => .ok ((c.bytes.drop start).take (c.offset - start), c)

/-- `n` times, for the effect. -/
def repeatN (p : Scanner ε β Unit) : ℕ → Scanner ε β Unit
  | 0 => pure ()
  | n + 1 => do
    p
    repeatN p n

/-- `n` times, for the values. -/
def collect (p : Scanner ε β α) : ℕ → Scanner ε β (List α)
  | 0 => pure []
  | n + 1 => do
    let a ← p
    let as ← collect p n
    pure (a :: as)

/-- `n` pieces of length `k`. -/
def chunks (truncated : ℕ → ε) (k n : ℕ) : Scanner ε β (List (List β)) :=
  (List.replicate n k).splitLengths <$> take truncated (n * k)

/-! ### Runs -/

theorem run_bind_ok {p : Scanner ε β α} {f : α → Scanner ε β γ} {c c' : Cursor β} {g : γ} :
    (p >>= f).run c = .ok (g, c') ↔ ∃ a c₁, p.run c = .ok (a, c₁) ∧ (f a).run c₁ = .ok (g, c') := by
  rw [StateT.run_bind]
  cases h : p.run c with
  | error e =>
    constructor
    · intro h'
      contradiction
    · intro ⟨a, c₁, h', _⟩
      contradiction
  | ok r =>
    obtain ⟨a, c₁⟩ := r
    constructor
    · exact fun h' => ⟨a, c₁, rfl, h'⟩
    · intro ⟨a', c₁', h', hf⟩
      cases h'
      exact hf

theorem run_map_ok {p : Scanner ε β α} {f : α → γ} {c c' : Cursor β} {g : γ} :
    (f <$> p).run c = .ok (g, c') ↔ ∃ a, p.run c = .ok (a, c') ∧ f a = g := by
  rw [map_eq_pure_bind, run_bind_ok]
  constructor
  · intro ⟨a, c₁, h, hf⟩
    cases hf
    exact ⟨a, h, rfl⟩
  · rintro ⟨a, h, rfl⟩
    exact ⟨a, c', h, rfl⟩

theorem run_offset_bind (f : ℕ → Scanner ε β γ) (c : Cursor β) : (offset >>= f).run c = (f c.offset).run c := rfl

theorem run_peek_ok {truncated : ℕ → ε} {c c' : Cursor β} {b : β} :
    (peek truncated).run c = .ok (b, c') ↔ c' = c ∧ c.bytes[c.offset]? = some b := by
  have hrun : (peek truncated).run c = match c.bytes[c.offset]? with
      | some b => .ok (b, c)
      | none => .error (truncated c.offset) := rfl
  rw [hrun]
  cases c.bytes[c.offset]? with
  | none => simp
  | some x =>
    constructor
    · intro h
      cases h
      exact ⟨rfl, rfl⟩
    · rintro ⟨rfl, hx⟩
      rw [Option.some.injEq] at hx
      rw [hx]

theorem run_peek_none {truncated : ℕ → ε} {c : Cursor β} (h : c.bytes[c.offset]? = none) :
    (peek truncated).run c = .error (truncated c.offset) := by
  show peek truncated c = _
  rw [peek, h]

theorem repeatN_map (f : α → Unit) (p : Scanner ε β α) (n : ℕ) :
    repeatN (f <$> p) n = (fun _ => ()) <$> collect p n := by
  induction n with
  | zero => rfl
  | succ n ih =>
    simp only [repeatN, collect, ih, bind_map_left, map_bind, map_pure]
    apply bind_congr
    intro a
    rw [map_eq_pure_bind]

/-! ### Reading a piece of the string -/

/-- `p` finds `a` in `seg`, wherever it stands, and consumes it. -/
def Reads (p : Scanner ε β α) (seg : List β) (a : α) : Prop :=
  ∀ before after, p.run ⟨before ++ (seg ++ after), before.length⟩ =
    .ok (a, ⟨before ++ (seg ++ after), (before ++ seg).length⟩)

theorem Reads.pure (a : α) : Reads (Pure.pure a : Scanner ε β α) [] a := by
  intro before after
  rw [List.append_nil]
  rfl

theorem Reads.bind {p : Scanner ε β α} {f : α → Scanner ε β γ} {s t : List β} {a : α} {g : γ}
    (hp : Reads p s a) (hf : Reads (f a) t g) : Reads (p >>= f) (s ++ t) g := by
  intro before after
  have h1 := hp before (t ++ after)
  have h2 := hf (before ++ s) after
  rw [List.append_assoc s t after]
  refine run_bind_ok.mpr ⟨a, _, h1, ?_⟩
  rw [List.append_assoc before s, List.append_assoc before s] at h2
  rw [h2]

theorem Reads.map {p : Scanner ε β α} {s : List β} {a : α} (hp : Reads p s a) (f : α → γ) :
    Reads (f <$> p) s (f a) := fun before after => run_map_ok.mpr ⟨a, hp before after, rfl⟩

theorem Reads.take (truncated : ℕ → ε) (s : List β) : Reads (take truncated s.length) s s := by
  intro before after
  have hdrop : (before ++ (s ++ after)).drop before.length = s ++ after := List.drop_left
  have hlen : before.length + s.length ≤ (before ++ (s ++ after)).length := by
    simp only [List.length_append]
    omega
  show (if _ then _ else _) = _
  rw [if_pos hlen, hdrop, List.take_left, List.length_append]

theorem run_spanFrom (before s after : List β) :
    (spanFrom before.length : Scanner ε β (List β)).run ⟨before ++ (s ++ after), (before ++ s).length⟩ =
      .ok (s, ⟨before ++ (s ++ after), (before ++ s).length⟩) := by
  have hdrop : (before ++ (s ++ after)).drop before.length = s ++ after := List.drop_left
  have hlen : (before ++ s).length - before.length = s.length := by
    rw [List.length_append, Nat.add_sub_cancel_left]
  show Except.ok (((before ++ (s ++ after)).drop before.length).take ((before ++ s).length - before.length), _) = _
  rw [hdrop, hlen, List.take_left]

/-- What `p` consumed is what stands between its start and its end. -/
theorem Reads.span {p : Scanner ε β Unit} {s : List β} (hp : Reads p s ()) (f : List β → γ) :
    Reads (do
      let start ← offset
      p
      let consumed ← spanFrom start
      Pure.pure (f consumed)) s (f s) := by
  intro before after
  refine run_bind_ok.mpr ⟨before.length, _, rfl, run_bind_ok.mpr ⟨(), _, hp before after, ?_⟩⟩
  exact run_bind_ok.mpr ⟨s, _, run_spanFrom before s after, rfl⟩

theorem Reads.repeatN {p : Scanner ε β Unit} {segs : List (List β)} (h : ∀ s ∈ segs, Reads p s ()) :
    Reads (repeatN p segs.length) segs.flatten () := by
  induction segs with
  | nil => exact Reads.pure ()
  | cons s segs ih =>
    have hs := h s List.mem_cons_self
    have hrest := ih fun t ht => h t (List.mem_cons_of_mem _ ht)
    exact hs.bind hrest

/-! ### Codecs -/

/-- `p` reads the encodings of the values in `V`, and nothing else, where what is left of
the string is in `R`. -/
structure CodecOn (R : List β → Prop) (p : Scanner ε β α) (enc : α → List β) (V : α → Prop) : Prop where
  reads : ∀ a, V a → Reads p (enc a) a
  exact : ∀ before rest a c', R rest → p.run ⟨before ++ rest, before.length⟩ = .ok (a, c') →
    V a ∧ ∃ after, rest = enc a ++ after ∧ c' = ⟨before ++ rest, (before ++ enc a).length⟩

/-- `p` reads the encodings of the values in `V`, and nothing else. -/
abbrev Codec (p : Scanner ε β α) (enc : α → List β) (V : α → Prop) : Prop := CodecOn (fun _ => True) p enc V

variable {R : List β → Prop}

theorem Codec.on {p : Scanner ε β α} {enc : α → List β} {V : α → Prop} (h : Codec p enc V) : CodecOn R p enc V where
  reads := h.reads
  exact before rest a c' _ hr := h.exact before rest a c' trivial hr

theorem Codec.inj {p : Scanner ε β α} {enc : α → List β} {V : α → Prop} (h : Codec p enc V) {a b : α} (ha : V a)
    (hb : V b) (heq : enc a = enc b) : a = b := by
  have h1 := h.reads a ha [] []
  have h2 := h.reads b hb [] []
  rw [heq, h2, Except.ok.injEq, Prod.mk.injEq] at h1
  exact h1.1.symm

theorem Codec.pure {enc : α → List β} {V : α → Prop} {x : α} (henc : enc x = []) (hV : ∀ g, V g ↔ g = x) :
    Codec (Pure.pure x : Scanner ε β α) enc V where
  reads g hg := by
    rw [(hV g).mp hg, henc]
    exact Reads.pure x
  exact before rest a c' _ h := by
    cases h
    refine ⟨(hV x).mpr rfl, rest, ?_, ?_⟩
    · rw [henc, List.nil_append]
    · rw [henc, List.append_nil]

theorem Codec.fail (e : ε) {enc : α → List β} {V : α → Prop} (hV : ∀ g, ¬ V g) : Codec (fail e) enc V where
  reads g hg := absurd hg (hV g)
  exact _ _ _ _ _ h := by cases h

/-- One step of a `do` block that builds a `γ`; the step reads its part `k`. -/
theorem CodecOn.step {p : Scanner ε β α} {f : α → Scanner ε β γ} {encA : α → List β} {VA : α → Prop}
    {enc : γ → List β} {V : γ → Prop} (k : γ → α) (encB : γ → List β) (hp : CodecOn R p encA VA)
    (hV : ∀ g, V g → VA (k g)) (henc : ∀ g, V g → enc g = encA (k g) ++ encB g)
    (hf : ∀ a, VA a → Codec (f a) encB (fun g => V g ∧ k g = a)) : CodecOn R (p >>= f) enc V where
  reads g hg := by
    rw [henc g hg]
    exact (hp.reads (k g) (hV g hg)).bind ((hf (k g) (hV g hg)).reads g ⟨hg, rfl⟩)
  exact before rest g c' hR h := by
    obtain ⟨a, c₁, h1, h2⟩ := run_bind_ok.mp h
    obtain ⟨hVA, after, rfl, rfl⟩ := hp.exact before rest a c₁ hR h1
    rw [← List.append_assoc] at h2
    obtain ⟨⟨hg, rfl⟩, after', rfl, rfl⟩ := (hf a hVA).exact (before ++ encA a) after g c' trivial h2
    refine ⟨hg, after', ?_, ?_⟩
    · rw [henc g hg, List.append_assoc]
    · rw [henc g hg, List.append_assoc, List.append_assoc before]

theorem CodecOn.congr {p : Scanner ε β α} {enc enc' : α → List β} {V V' : α → Prop} (h : CodecOn R p enc V)
    (hV : ∀ a, V a ↔ V' a) (henc : ∀ a, V a → enc a = enc' a) : CodecOn R p enc' V' where
  reads a ha := by
    rw [← henc a ((hV a).mpr ha)]
    exact h.reads a ((hV a).mpr ha)
  exact before rest a c' hR hr := by
    obtain ⟨ha, hafter⟩ := h.exact before rest a c' hR hr
    rw [henc a ha] at hafter
    exact ⟨(hV a).mp ha, hafter⟩

theorem CodecOn.map {p : Scanner ε β α} {enc : α → List β} {V : α → Prop} (h : CodecOn R p enc V) (f : α → γ)
    {enc' : γ → List β} {V' : γ → Prop} (henc : ∀ a, V a → enc' (f a) = enc a)
    (hV : ∀ g, V' g ↔ ∃ a, V a ∧ f a = g) : CodecOn R (f <$> p) enc' V' where
  reads g hg := by
    obtain ⟨a, ha, rfl⟩ := (hV g).mp hg
    rw [henc a ha]
    exact (h.reads a ha).map f
  exact before rest g c' hR hr := by
    obtain ⟨a, hra, rfl⟩ := run_map_ok.mp hr
    obtain ⟨ha, hafter⟩ := h.exact before rest a c' hR hra
    rw [← henc a ha] at hafter
    exact ⟨(hV _).mpr ⟨a, ha, rfl⟩, hafter⟩

theorem Codec.offset {f : ℕ → Scanner ε β γ} {enc : γ → List β} {V : γ → Prop} (hf : ∀ n, Codec (f n) enc V) :
    Codec (offset >>= f) enc V where
  reads g hg before after := (hf before.length).reads g hg before after
  exact before rest g c' _ h := (hf before.length).exact before rest g c' trivial h

/-- A scanner that looks at the first symbol of what it goes on to read. -/
theorem Codec.peek (truncated : ℕ → ε) {f : β → Scanner ε β γ} {enc : γ → List β} {V : γ → Prop}
    (W : β → γ → Prop) (hV : ∀ g, V g → ∃ b, (enc g).head? = some b ∧ W b g)
    (hW : ∀ b g, W b g → (enc g).head? = some b → V g) (hne : ∀ b g, W b g → enc g ≠ [])
    (hf : ∀ b, CodecOn (fun rest => rest.head? = some b) (f b) enc (W b)) : Codec (peek truncated >>= f) enc V where
  reads g hg before after := by
    obtain ⟨b, hb, hWb⟩ := hV g hg
    have hget : (before ++ (enc g ++ after))[before.length]? = some b := by
      rw [List.getElem?_append_right le_rfl, Nat.sub_self, ← List.head?_eq_getElem?, List.head?_append, hb]
      rfl
    exact run_bind_ok.mpr ⟨b, _, run_peek_ok.mpr ⟨rfl, hget⟩, (hf b).reads g hWb before after⟩
  exact before rest g c' _ h := by
    obtain ⟨b, c₁, h1, h2⟩ := run_bind_ok.mp h
    obtain ⟨rfl, hb⟩ := run_peek_ok.mp h1
    rw [List.getElem?_append_right le_rfl, Nat.sub_self, ← List.head?_eq_getElem?] at hb
    obtain ⟨hg, after, rfl, hc⟩ := (hf b).exact before rest g c' hb h2
    obtain ⟨b₂, t, hcons⟩ := List.exists_cons_of_ne_nil (hne b g hg)
    refine ⟨hW b g hg ?_, after, rfl, hc⟩
    rw [hcons] at hb ⊢
    exact hb

theorem Codec.take (truncated : ℕ → ε) (n : ℕ) :
    Codec (take truncated n : Scanner ε β (List β)) (fun s => s) (fun s => s.length = n) where
  reads s hs := by
    rw [← hs]
    exact Reads.take truncated s
  exact before rest s c' _ h := by
    change (if _ then _ else _) = _ at h
    split at h
    · rename_i hle
      cases h
      have hdrop : (before ++ rest).drop before.length = rest := List.drop_left
      simp only [List.length_append] at hle
      have hlen : (rest.take n).length = n := by
        rw [List.length_take]
        omega
      dsimp only
      rw [hdrop]
      refine ⟨hlen, rest.drop n, (List.take_append_drop n rest).symm, ?_⟩
      rw [List.length_append, hlen]
    · contradiction

/-- What was consumed, in place of what was found. -/
def spanned (p : Scanner ε β α) : Scanner ε β (List β) := do
  let start ← offset
  let _ ← p
  spanFrom start

theorem Codec.spanned {p : Scanner ε β α} {enc : α → List β} {V : α → Prop} (hp : Codec p enc V) :
    Codec (spanned p) (fun s => s) (fun s => ∃ a, V a ∧ enc a = s) where
  reads := by
    rintro _ ⟨a, ha, rfl⟩ before after
    refine run_bind_ok.mpr ⟨before.length, _, rfl, run_bind_ok.mpr ⟨a, _, hp.reads a ha before after, ?_⟩⟩
    exact run_spanFrom before (enc a) after
  exact before rest s c' _ h := by
    obtain ⟨start, c₁, hstart, h1⟩ := run_bind_ok.mp h
    cases hstart
    obtain ⟨a, c₂, hrun, h2⟩ := run_bind_ok.mp h1
    obtain ⟨ha, after, rfl, rfl⟩ := hp.exact before rest a c₂ trivial hrun
    rw [run_spanFrom, Except.ok.injEq, Prod.mk.injEq] at h2
    obtain ⟨rfl, rfl⟩ := h2
    exact ⟨⟨a, ha, rfl⟩, after, rfl, rfl⟩

theorem Codec.collect {p : Scanner ε β α} {enc : α → List β} {V : α → Prop} (hp : Codec p enc V) (n : ℕ) :
    Codec (collect p n) (fun as => as.flatMap enc) (fun as => as.length = n ∧ ∀ a ∈ as, V a) := by
  induction n with
  | zero =>
    apply Codec.pure rfl
    intro as
    constructor
    · exact fun h => List.length_eq_zero_iff.mp h.1
    · rintro rfl
      exact ⟨rfl, fun a ha => absurd ha (List.not_mem_nil)⟩
  | succ n ih =>
    constructor
    · intro as ⟨hlen, hall⟩
      obtain ⟨a, as, rfl⟩ := List.exists_cons_of_length_eq_add_one hlen
      have ha := hp.reads a (hall a List.mem_cons_self)
      have has := ih.reads as ⟨by simpa using hlen, fun b hb => hall b (List.mem_cons_of_mem _ hb)⟩
      have hrest := has.bind (f := fun as => Pure.pure (a :: as)) (Reads.pure (a :: as))
      rw [List.append_nil] at hrest
      exact ha.bind hrest
    · intro before rest as c' _ h
      obtain ⟨a, c₁, h1, h2⟩ := run_bind_ok.mp h
      obtain ⟨as', c₂, h3, h4⟩ := run_bind_ok.mp h2
      cases h4
      obtain ⟨ha, after, rfl, rfl⟩ := hp.exact before rest a c₁ trivial h1
      rw [← List.append_assoc] at h3
      obtain ⟨⟨hlen, hall⟩, after', rfl, rfl⟩ := ih.exact (before ++ enc a) after as' c' trivial h3
      refine ⟨⟨by rw [List.length_cons, hlen], ?_⟩, after', ?_, ?_⟩
      · intro b hb
        rcases List.mem_cons.mp hb with rfl | hb
        · exact ha
        · exact hall b hb
      · rw [List.flatMap_cons, List.append_assoc]
      · rw [List.flatMap_cons, List.append_assoc, List.append_assoc before]

theorem splitLengths_flatten (ss : List (List β)) : (ss.map List.length).splitLengths ss.flatten = ss := by
  induction ss with
  | nil => rfl
  | cons s ss ih =>
    rw [List.map_cons, List.flatten_cons, List.splitLengths_cons, List.take_left, List.drop_left, ih]

theorem Codec.split (truncated : ℕ → ε) (lens : List ℕ) :
    Codec (lens.splitLengths <$> Scanner.take truncated lens.sum : Scanner ε β (List (List β))) List.flatten
      (fun ss => ss.map List.length = lens) where
  reads ss hss := by
    subst hss
    have hread := (Reads.take truncated ss.flatten).map (ss.map List.length).splitLengths
    rwa [List.length_flatten, splitLengths_flatten] at hread
  exact before rest ss c' _ h := by
    obtain ⟨s, hs, rfl⟩ := run_map_ok.mp h
    obtain ⟨hlen, hafter⟩ := (Codec.take truncated lens.sum).exact before rest s c' trivial hs
    rw [List.flatten_splitLengths _ _ hlen.le]
    exact ⟨List.map_splitLengths_length _ _ hlen.ge, hafter⟩

theorem Codec.chunks (truncated : ℕ → ε) (k n : ℕ) :
    Codec (chunks truncated k n : Scanner ε β (List (List β))) List.flatten
      (fun ss => ss.length = n ∧ ∀ s ∈ ss, s.length = k) := by
  have hsplit := Codec.split (β := β) truncated (List.replicate n k)
  rw [List.sum_replicate_nat] at hsplit
  refine hsplit.congr (fun ss => ?_) fun _ _ => rfl
  rw [List.eq_replicate_iff, List.length_map, List.forall_mem_map]

end Scanner
