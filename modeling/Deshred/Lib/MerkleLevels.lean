import Mathlib.Data.Nat.Bitwise
import Mathlib.Data.List.Basic

/-!
# Binary hash trees, level by level

Digests `δ` are cut to `τ` by `t` before two of them are joined by `j`; a level
with an odd number of nodes pairs its last node with itself. A walk climbs from a
node with one cut sibling per level. Honest siblings lead to the root. Conversely,
when no two inputs of `j` that were evaluated give the same cut digest, a walk
that reaches the root of a full tree used the tree's own node and siblings,
whatever its length: no leaf digest may pass for a join.
-/

namespace MerkleLevels
variable {δ τ : Type} (t : δ → τ) (j : τ → τ → δ)

/-- Inputs of the joins that build the next level. -/
def pairs : List δ → List (τ × τ)
  | [] => []
  | [a] => [(t a, t a)]
  | a :: b :: rest => (t a, t b) :: pairs rest

def levelUp (l : List δ) : List δ := (pairs t l).map fun p => j p.1 p.2

def level (l : List δ) : ℕ → List δ
  | 0 => l
  | m + 1 => level (levelUp t j l) m

/-- Inputs of all joins of the next `m` levels. -/
def treePairs : ℕ → List δ → List (τ × τ)
  | 0, _ => []
  | m + 1, l => pairs t l ++ treePairs m (levelUp t j l)

def stepPair (i : ℕ) (x : δ) (s : τ) : τ × τ := if i % 2 = 0 then (t x, s) else (s, t x)

def walk : ℕ → δ → List τ → δ
  | _, x, [] => x
  | i, x, s :: ss => walk (i / 2) (j (stepPair t i x s).1 (stepPair t i x s).2) ss

/-- Inputs of the joins a walk evaluates. -/
def walkPairs : ℕ → δ → List τ → List (τ × τ)
  | _, _, [] => []
  | i, x, s :: ss =>
    stepPair t i x s :: walkPairs (i / 2) (j (stepPair t i x s).1 (stepPair t i x s).2) ss

section
variable [Inhabited δ]

def sibling (l : List δ) (i : ℕ) : τ := t (l.getD (min (i ^^^ 1) (l.length - 1)) default)

def siblings : ℕ → List δ → ℕ → List τ
  | 0, _, _ => []
  | m + 1, l, i => sibling t l i :: siblings m (levelUp t j l) (i / 2)

end

theorem xor_one (i : ℕ) : i ^^^ 1 = if i % 2 = 0 then i + 1 else i - 1 := by
  split
  · exact Nat.xor_one_of_even (Nat.even_iff.mpr ‹_›)
  · exact Nat.xor_one_of_odd (Nat.odd_iff.mpr (by omega))

theorem pairs_getElem? (l : List δ) (k : ℕ) :
    (pairs t l)[k]? = l[2 * k]?.map fun a => (t a, t (l[2 * k + 1]?.getD a)) := by
  induction l using pairs.induct generalizing k with
  | case1 => simp [pairs]
  | case2 a => cases k <;> simp [pairs, Nat.mul_add]
  | case3 a b rest ih =>
    cases k with
    | zero => simp [pairs]
    | succ k =>
      have h1 : 2 * (k + 1) = 2 * k + 1 + 1 := by omega
      simp only [pairs, List.getElem?_cons_succ, ih, h1]

theorem pairs_length (l : List δ) : (pairs t l).length = (l.length + 1) / 2 := by
  induction l using pairs.induct with
  | case1 => simp [pairs]
  | case2 a => simp [pairs]
  | case3 a b rest ih =>
    simp only [pairs, List.length_cons, ih]
    omega

@[simp] theorem levelUp_length (l : List δ) : (levelUp t j l).length = (l.length + 1) / 2 := by
  rw [levelUp, List.length_map, pairs_length]

@[simp] theorem siblings_length [Inhabited δ] (m : ℕ) (l : List δ) (i : ℕ) :
    (siblings t j m l i).length = m := by
  induction m generalizing l i with
  | zero => rfl
  | succ m ih => simp [siblings, ih]

theorem siblings_forall [Inhabited δ] {Q : τ → Prop} (h : ∀ d, Q (t d)) (m : ℕ) (l : List δ) (i : ℕ) :
    ∀ s ∈ siblings t j m l i, Q s := by
  induction m generalizing l i with
  | zero => simp [siblings]
  | succ m ih =>
    intro s hs
    rcases List.mem_cons.mp hs with rfl | hs
    · exact h _
    · exact ih _ _ s hs

theorem pairs_forall {Q : τ × τ → Prop} (h : ∀ a b, Q (t a, t b)) (l : List δ) :
    ∀ p ∈ pairs t l, Q p := by
  induction l using pairs.induct with
  | case1 => simp [pairs]
  | case2 a => simpa [pairs] using h a a
  | case3 a b rest ih =>
    intro p hp
    rcases List.mem_cons.mp hp with rfl | hp
    · exact h a b
    · exact ih p hp

theorem treePairs_forall {Q : τ × τ → Prop} (h : ∀ a b, Q (t a, t b)) (m : ℕ) (l : List δ) :
    ∀ p ∈ treePairs t j m l, Q p := by
  induction m generalizing l with
  | zero => simp [treePairs]
  | succ m ih =>
    intro p hp
    rcases List.mem_append.mp hp with hp | hp
    · exact pairs_forall t h l p hp
    · exact ih _ p hp

theorem walkPairs_forall {Q : τ × τ → Prop} (ss : List τ) (h : ∀ x, ∀ s ∈ ss, Q (t x, s) ∧ Q (s, t x))
    (i : ℕ) (x : δ) : ∀ p ∈ walkPairs t j i x ss, Q p := by
  induction ss generalizing i x with
  | nil => simp [walkPairs]
  | cons s ss ih =>
    intro p hp
    rcases List.mem_cons.mp hp with rfl | hp
    · have hs := h x s (List.mem_cons_self ..)
      unfold stepPair
      split
      · exact hs.1
      · exact hs.2
    · exact ih (fun y s' hs' => h y s' (List.mem_cons_of_mem _ hs')) _ _ p hp

theorem stepPair_sibling [Inhabited δ] (l : List δ) (i : ℕ) (x : δ) (h : l[i]? = some x) :
    (pairs t l)[i / 2]? = some (stepPair t i x (sibling t l i)) := by
  have hi : i < l.length := (List.getElem?_eq_some_iff.mp h).1
  rw [pairs_getElem?, stepPair, sibling, xor_one]
  split
  · rename_i he
    have h2 : 2 * (i / 2) = i := by omega
    rw [h2, h, Option.map_some]
    by_cases hlast : i + 1 < l.length
    · have hmin : min (i + 1) (l.length - 1) = i + 1 := by omega
      rw [hmin, List.getD_eq_getElem?_getD, List.getElem?_eq_getElem hlast]
      rfl
    · have hmin : min (i + 1) (l.length - 1) = i := by omega
      rw [hmin, List.getD_eq_getElem?_getD, h, List.getElem?_eq_none (by omega)]
      rfl
  · rename_i ho
    have h2 : 2 * (i / 2) = i - 1 := by omega
    have h3 : i - 1 + 1 = i := by omega
    have hmin : min (i - 1) (l.length - 1) = i - 1 := by omega
    have hlt : i - 1 < l.length := by omega
    rw [h2, h3, h, hmin, List.getElem?_eq_getElem hlt, Option.map_some, List.getD_eq_getElem?_getD,
      List.getElem?_eq_getElem hlt]
    rfl

/-- Honest siblings lead from any node to the node `m` levels above it. -/
theorem walk_siblings [Inhabited δ] (m : ℕ) (l : List δ) (i : ℕ) (x : δ) (h : l[i]? = some x) :
    (level t j l m)[i / 2 ^ m]? = some (walk t j i x (siblings t j m l i)) := by
  induction m generalizing l i x with
  | zero => simpa [level, siblings, walk] using h
  | succ m ih =>
    have hp := stepPair_sibling t l i x h
    have hup : (levelUp t j l)[i / 2]? = some (j (stepPair t i x (sibling t l i)).1
        (stepPair t i x (sibling t l i)).2) := by
      rw [levelUp, List.getElem?_map, hp]
      rfl
    have hdiv : i / 2 ^ (m + 1) = i / 2 / 2 ^ m := by
      rw [Nat.div_div_eq_div_mul, pow_succ']
    rw [hdiv]
    exact ih (levelUp t j l) (i / 2) _ hup

/-- An honest walk evaluates joins of the tree only. -/
theorem walkPairs_siblings [Inhabited δ] (m : ℕ) (l : List δ) (i : ℕ) (x : δ) (h : l[i]? = some x) :
    ∀ p ∈ walkPairs t j i x (siblings t j m l i), p ∈ treePairs t j m l := by
  induction m generalizing l i x with
  | zero => simp [siblings, walkPairs]
  | succ m ih =>
    have hpair := stepPair_sibling t l i x h
    have hup : (levelUp t j l)[i / 2]? = some (j (stepPair t i x (sibling t l i)).1
        (stepPair t i x (sibling t l i)).2) := by
      rw [levelUp, List.getElem?_map, hpair]
      rfl
    intro p hp
    rcases List.mem_cons.mp hp with rfl | hp
    · exact List.mem_append_left _ (List.mem_of_getElem? hpair)
    · exact List.mem_append_right _ (ih _ _ _ hup p hp)

theorem walk_append (i : ℕ) (x : δ) (ss ss' : List τ) :
    walk t j i x (ss ++ ss') = walk t j (i / 2 ^ ss.length) (walk t j i x ss) ss' := by
  induction ss generalizing i x with
  | nil => simp [walk]
  | cons s ss ih =>
    rw [List.cons_append, walk, ih, walk, List.length_cons, pow_succ', Nat.div_div_eq_div_mul]

theorem walkPairs_append (i : ℕ) (x : δ) (ss ss' : List τ) :
    walkPairs t j i x (ss ++ ss') =
      walkPairs t j i x ss ++ walkPairs t j (i / 2 ^ ss.length) (walk t j i x ss) ss' := by
  induction ss generalizing i x with
  | nil => simp [walkPairs, walk]
  | cons s ss ih =>
    rw [List.cons_append, walkPairs, ih, walkPairs, walk, List.length_cons, pow_succ',
      Nat.div_div_eq_div_mul]
    rfl

theorem walk_eq_join (i : ℕ) (x : δ) (ss : List τ) (h : ss ≠ []) :
    ∃ p ∈ walkPairs t j i x ss, walk t j i x ss = j p.1 p.2 := by
  induction ss generalizing i x with
  | nil => contradiction
  | cons s ss ih =>
    cases ss with
    | nil => exact ⟨stepPair t i x s, by simp [walkPairs], rfl⟩
    | cons s' ss =>
      obtain ⟨p, hp, he⟩ := ih (i / 2) (j (stepPair t i x s).1 (stepPair t i x s).2) (by simp)
      exact ⟨p, List.mem_cons_of_mem _ hp, he⟩

theorem level_add (l : List δ) (m n : ℕ) : level t j l (m + n) = level t j (level t j l m) n := by
  induction m generalizing l with
  | zero => simp [level]
  | succ m ih => rw [Nat.succ_add, level, ih, level]

theorem treePairs_add (m n : ℕ) (l : List δ) :
    treePairs t j (m + n) l = treePairs t j m l ++ treePairs t j n (level t j l m) := by
  induction m generalizing l with
  | zero => simp [treePairs, level]
  | succ m ih => rw [Nat.succ_add, treePairs, ih, treePairs, level, List.append_assoc]

theorem level_eq_join (m : ℕ) (l : List δ) (y : δ) (h : y ∈ level t j l (m + 1)) :
    ∃ p ∈ treePairs t j (m + 1) l, y = j p.1 p.2 := by
  rw [level_add, level, level] at h
  obtain ⟨p, hp, rfl⟩ := List.mem_map.mp h
  refine ⟨p, ?_, rfl⟩
  rw [treePairs_add, treePairs]
  exact List.mem_append_right _ (List.mem_append_left _ hp)

theorem level_length (m n : ℕ) (l : List δ) (h : l.length = 2 ^ (m + n)) :
    (level t j l m).length = 2 ^ n := by
  induction m generalizing l with
  | zero => simpa [level] using h
  | succ m ih =>
    apply ih (levelUp t j l)
    rw [levelUp_length, h, Nat.succ_add, pow_succ]
    omega

section
variable [Inhabited δ] {P : τ × τ → Prop}

/- Top down: the digest above fixes the pair below it, hence the node and its
sibling. The induction climbs one level and reads the equality back. -/
theorem walk_pins (hcf : ∀ p q, P p → P q → t (j p.1 p.2) = t (j q.1 q.2) → p = q)
    (m n : ℕ) (l : List δ) (i : ℕ) (x y r : δ) (ss : List τ)
    (hl : l.length = 2 ^ (m + n)) (hy : l[i]? = some y) (hss : ss.length = m)
    (htree : ∀ p ∈ treePairs t j m l, P p) (hwalk : ∀ p ∈ walkPairs t j i x ss, P p)
    (hr : (level t j l m)[i / 2 ^ m]? = some r) (heq : t (walk t j i x ss) = t r) :
    t x = t y ∧ ss = siblings t j m l i := by
  induction m generalizing l i x y ss with
  | zero =>
    obtain rfl := List.length_eq_zero_iff.mp hss
    have hyr : y = r := by simpa [level, hy] using hr
    exact ⟨by simpa [walk, hyr] using heq, rfl⟩
  | succ m ih =>
    cases ss with
    | nil => simp at hss
    | cons s ss =>
      have hpair := stepPair_sibling t l i y hy
      have hup : (levelUp t j l)[i / 2]? = some (j (stepPair t i y (sibling t l i)).1
          (stepPair t i y (sibling t l i)).2) := by
        rw [levelUp, List.getElem?_map, hpair]
        rfl
      have hlen : (levelUp t j l).length = 2 ^ (m + n) := by
        rw [levelUp_length, hl, Nat.succ_add, pow_succ]
        omega
      have hdiv : i / 2 ^ (m + 1) = i / 2 / 2 ^ m := by
        rw [Nat.div_div_eq_div_mul, pow_succ']
      rw [hdiv] at hr
      have htree' : ∀ p ∈ treePairs t j m (levelUp t j l), P p := fun p hp =>
        htree p (List.mem_append_right _ hp)
      have hwalk' : ∀ p ∈ walkPairs t j (i / 2) (j (stepPair t i x s).1 (stepPair t i x s).2) ss, P p :=
        fun p hp => hwalk p (List.mem_cons_of_mem _ hp)
      obtain ⟨htop, hrest⟩ := ih (levelUp t j l) (i / 2) _ _ ss hlen hup (by simpa using hss)
        htree' hwalk' hr heq
      have hP : P (stepPair t i y (sibling t l i)) :=
        htree _ (List.mem_append_left _ (List.mem_of_getElem? hpair))
      have hQ : P (stepPair t i x s) := hwalk _ (List.mem_cons_self ..)
      have hboth := hcf _ _ hQ hP htop
      have hxs : t x = t y ∧ s = sibling t l i := by
        unfold stepPair at hboth
        split at hboth
        · exact Prod.mk.inj hboth
        · exact (Prod.mk.inj hboth).symm
      refine ⟨hxs.1, ?_⟩
      rw [siblings, hxs.2, hrest]

/-- A walk of any length to the root of a full tree is the tree's own path. -/
theorem walk_root_pins (hcf : ∀ p q, P p → P q → t (j p.1 p.2) = t (j q.1 q.2) → p = q)
    (m : ℕ) (l : List δ) (i : ℕ) (x r : δ) (ss : List τ) (hl : l.length = 2 ^ m)
    (hi : i < 2 ^ ss.length) (htree : ∀ p ∈ treePairs t j m l, P p)
    (hwalk : ∀ p ∈ walkPairs t j i x ss, P p)
    (hdom : ∀ y ∈ x :: l, ∀ p, P p → t (j p.1 p.2) ≠ t y)
    (hr : level t j l m = [r]) (heq : t (walk t j i x ss) = t r) :
    ∃ y, l[i]? = some y ∧ t x = t y ∧ ss = siblings t j m l i := by
  rcases Nat.lt_trichotomy ss.length m with hlt | hlen | hgt
  · -- too short: the walk stops at a join of the tree, which no leaf can equal
    obtain ⟨k, rfl⟩ := Nat.exists_eq_add_of_lt hlt
    have hm : ss.length + k + 1 = (k + 1) + ss.length := by omega
    rw [hm] at hl htree hr
    have hlow := level_length t j (k + 1) ss.length l hl
    rw [level_add] at hr
    rw [treePairs_add] at htree
    obtain ⟨y, hy⟩ : ∃ y, (level t j l (k + 1))[i]? = some y :=
      ⟨_, List.getElem?_eq_getElem (by omega)⟩
    have hzero : i / 2 ^ ss.length = 0 := Nat.div_eq_of_lt hi
    have hpin := walk_pins t j hcf ss.length 0 (level t j l (k + 1)) i x y r ss (by simpa using hlow)
      hy rfl (fun p hp => htree p (List.mem_append_right _ hp)) hwalk (by simp [hr, hzero]) heq
    obtain ⟨p, hp, rfl⟩ := level_eq_join t j k l y (List.mem_of_getElem? hy)
    exact absurd hpin.1.symm (hdom x (List.mem_cons_self ..) p (htree p (List.mem_append_left _ hp)))
  · subst hlen
    obtain ⟨y, hy⟩ : ∃ y, l[i]? = some y := ⟨_, List.getElem?_eq_getElem (by omega)⟩
    have hzero : i / 2 ^ ss.length = 0 := Nat.div_eq_of_lt hi
    have hpin := walk_pins t j hcf ss.length 0 l i x y r ss (by simpa using hl) hy rfl htree hwalk
      (by simp [hr, hzero]) heq
    exact ⟨y, hy, hpin⟩
  · -- too long: some join of the walk would stand where the tree has a leaf
    have hsplit := List.take_append_drop (ss.length - m) ss
    have htk : (ss.take (ss.length - m)).length = ss.length - m := by simp
    have hdr : (ss.drop (ss.length - m)).length = m := by
      rw [List.length_drop]
      omega
    rw [← hsplit, walk_append, htk] at heq
    rw [← hsplit, walkPairs_append, htk] at hwalk
    have hi' : i / 2 ^ (ss.length - m) < 2 ^ m := by
      rw [Nat.div_lt_iff_lt_mul (Nat.two_pow_pos _), ← pow_add]
      have hadd : m + (ss.length - m) = ss.length := by omega
      rw [hadd]
      exact hi
    obtain ⟨y, hy⟩ : ∃ y, l[i / 2 ^ (ss.length - m)]? = some y :=
      ⟨_, List.getElem?_eq_getElem (by omega)⟩
    have hzero : i / 2 ^ (ss.length - m) / 2 ^ m = 0 := Nat.div_eq_of_lt hi'
    have hpin := walk_pins t j hcf m 0 l _ _ y r _ (by simpa using hl) hy hdr htree
      (fun p hp => hwalk p (List.mem_append_right _ hp)) (by simp [hr, hzero]) heq
    have hne : ss.take (ss.length - m) ≠ [] := by
      intro hnil
      rw [hnil] at htk
      simp only [List.length_nil] at htk
      omega
    obtain ⟨p, hp, hjoin⟩ := walk_eq_join t j i x (ss.take (ss.length - m)) hne
    rw [hjoin] at hpin
    exact absurd hpin.1 (hdom y (List.mem_cons_of_mem _ (List.mem_of_getElem? hy)) p
      (hwalk p (List.mem_append_left _ hp)))

end

end MerkleLevels
