import Mathlib.Data.Finset.Max
import Mathlib.Order.Interval.Finset.Nat

/-!
# Ordered finite maps

A map from an ordered key type with finitely many keys, with the operations an
ordered tree offers at its two ends. The set of keys is determined by the lookup
function, so two maps with the same lookups are equal.
-/

structure OrdMap (κ α : Type) [LinearOrder κ] where
  keys : Finset κ
  find : κ → Option α
  mem_keys : ∀ k, k ∈ keys ↔ (find k).isSome

namespace OrdMap
variable {κ α : Type} [LinearOrder κ]

@[ext] theorem ext {m m' : OrdMap κ α} (h : ∀ k, m.find k = m'.find k) : m = m' := by
  obtain ⟨ks, f, hf⟩ := m
  obtain ⟨ks', f', hf'⟩ := m'
  have hff : f = f' := funext h
  subst hff
  have hks : ks = ks' := by
    ext k
    rw [hf, hf']
  subst hks
  rfl

def empty : OrdMap κ α := ⟨∅, fun _ => none, by simp⟩

def insert (m : OrdMap κ α) (k : κ) (v : α) : OrdMap κ α where
  keys := Insert.insert k m.keys
  find j := if j = k then some v else m.find j
  mem_keys j := by
    by_cases h : j = k
    · simp [h]
    · simp [h, m.mem_keys]

def erase (m : OrdMap κ α) (k : κ) : OrdMap κ α where
  keys := m.keys.erase k
  find j := if j = k then none else m.find j
  mem_keys j := by
    by_cases h : j = k
    · simp [h]
    · simp [h, m.mem_keys]

def size (m : OrdMap κ α) : ℕ := m.keys.card

def firstKey (m : OrdMap κ α) : Option κ :=
  if h : m.keys.Nonempty then some (m.keys.min' h) else none

def lastKey (m : OrdMap κ α) : Option κ :=
  if h : m.keys.Nonempty then some (m.keys.max' h) else none

def popFirst (m : OrdMap κ α) : OrdMap κ α := m.firstKey.elim m m.erase

def popLast (m : OrdMap κ α) : OrdMap κ α := m.lastKey.elim m m.erase

@[simp] theorem empty_keys : (empty : OrdMap κ α).keys = ∅ := rfl
@[simp] theorem empty_find (k : κ) : (empty : OrdMap κ α).find k = none := rfl
@[simp] theorem insert_keys (m : OrdMap κ α) (k : κ) (v : α) :
    (m.insert k v).keys = Insert.insert k m.keys := rfl
@[simp] theorem insert_find_self (m : OrdMap κ α) (k : κ) (v : α) :
    (m.insert k v).find k = some v := by simp [insert]
theorem insert_find_ne (m : OrdMap κ α) {j k : κ} (v : α) (h : j ≠ k) :
    (m.insert k v).find j = m.find j := by simp [insert, h]
@[simp] theorem erase_keys (m : OrdMap κ α) (k : κ) : (m.erase k).keys = m.keys.erase k := rfl
theorem erase_find_ne (m : OrdMap κ α) {j k : κ} (h : j ≠ k) : (m.erase k).find j = m.find j := by
  simp [erase, h]

theorem find_eq_none_iff (m : OrdMap κ α) (k : κ) : m.find k = none ↔ k ∉ m.keys := by
  rw [m.mem_keys]
  cases m.find k <;> simp

theorem firstKey_some {m : OrdMap κ α} {k : κ} (h : m.firstKey = some k) :
    k ∈ m.keys ∧ ∀ j ∈ m.keys, k ≤ j := by
  unfold firstKey at h
  split at h
  · rename_i hne
    cases h
    exact ⟨m.keys.min'_mem hne, fun j hj => m.keys.min'_le j hj⟩
  · contradiction

theorem firstKey_none {m : OrdMap κ α} (h : m.firstKey = none) : m.keys = ∅ := by
  unfold firstKey at h
  split at h
  · contradiction
  · rename_i hne
    exact Finset.not_nonempty_iff_eq_empty.mp hne

theorem lastKey_some {m : OrdMap κ α} {k : κ} (h : m.lastKey = some k) :
    k ∈ m.keys ∧ ∀ j ∈ m.keys, j ≤ k := by
  unfold lastKey at h
  split at h
  · rename_i hne
    cases h
    exact ⟨m.keys.max'_mem hne, fun j hj => m.keys.le_max' j hj⟩
  · contradiction

theorem lastKey_none {m : OrdMap κ α} (h : m.lastKey = none) : m.keys = ∅ := by
  unfold lastKey at h
  split at h
  · contradiction
  · rename_i hne
    exact Finset.not_nonempty_iff_eq_empty.mp hne

theorem popFirst_size_lt {m : OrdMap κ α} {k : κ} (h : m.firstKey = some k) :
    m.popFirst.size < m.size := by
  simp only [popFirst, h, Option.elim, size, erase_keys]
  exact Finset.card_erase_lt_of_mem (firstKey_some h).1

theorem popLast_size_lt {m : OrdMap κ α} (h : 0 < m.size) : m.popLast.size < m.size := by
  cases hk : m.lastKey with
  | none => simp [size, lastKey_none hk] at h
  | some k =>
    simp only [popLast, hk, Option.elim, size, erase_keys]
    exact Finset.card_erase_lt_of_mem (lastKey_some hk).1

/-- Pop the least key as long as it satisfies `p`. -/
def popFirstWhile (m : OrdMap κ α) (p : κ → Bool) : OrdMap κ α :=
  match _h : m.firstKey with
  | none => m
  | some k => if p k then m.popFirst.popFirstWhile p else m
termination_by m.size
decreasing_by exact popFirst_size_lt _h

/-- Pop the greatest key as long as there are more than `n`. -/
def popLastUntil (m : OrdMap κ α) (n : ℕ) : OrdMap κ α :=
  if n < m.size then m.popLast.popLastUntil n else m
termination_by m.size
decreasing_by exact popLast_size_lt (by omega)

/-- A key survives exactly when the least key failing `p` does not come after it. -/
theorem popFirstWhile_find (m : OrdMap κ α) (p : κ → Bool) (k : κ) :
    (m.popFirstWhile p).find k =
      if ∃ j ∈ m.keys, j ≤ k ∧ p j = false then m.find k else none := by
  induction m using popFirstWhile.induct (p := p) with
  | case1 m h =>
    rw [popFirstWhile]
    split
    · have hk := firstKey_none h
      simp [hk, m.find_eq_none_iff]
    · rename_i h'
      simp [h] at h'
  | case2 m k₀ h hp ih =>
    rw [popFirstWhile]
    split
    · rename_i h'
      simp [h] at h'
    · rename_i k₁ h'
      obtain rfl : k₀ = k₁ := by simpa [h] using h'
      have hmin := firstKey_some h
      rw [if_pos hp, ih]
      have hpop : m.popFirst = m.erase k₀ := by simp [popFirst, h]
      rw [hpop]
      by_cases hex : ∃ j ∈ m.keys, j ≤ k ∧ p j = false
      · obtain ⟨j, hj, hjk, hpj⟩ := hex
        have hjk₀ : j ≠ k₀ := by
          intro he
          rw [he, hp] at hpj
          contradiction
        have hkk₀ : k ≠ k₀ := fun he => hjk₀ (le_antisymm (he ▸ hjk) (hmin.2 j hj))
        rw [if_pos ⟨j, by simp [hjk₀, hj], hjk, hpj⟩, if_pos ⟨j, hj, hjk, hpj⟩, erase_find_ne m hkk₀]
      · rw [if_neg hex, if_neg]
        intro ⟨j, hj, hjk, hpj⟩
        exact hex ⟨j, Finset.mem_of_mem_erase hj, hjk, hpj⟩
  | case3 m k₀ h hp =>
    rw [popFirstWhile]
    split
    · rename_i h'
      simp [h] at h'
    · rename_i k₁ h'
      obtain rfl : k₀ = k₁ := by simpa [h] using h'
      have hmin := firstKey_some h
      rw [if_neg hp]
      by_cases hk : k ∈ m.keys
      · rw [if_pos ⟨k₀, hmin.1, hmin.2 k hk, by simpa using hp⟩]
      · rw [(m.find_eq_none_iff k).mpr hk]
        simp

/-- A key survives exactly when at most `n` keys are no greater than it. -/
theorem popLastUntil_find (m : OrdMap κ α) (n : ℕ) (k : κ) :
    (m.popLastUntil n).find k = if (m.keys.filter (· ≤ k)).card ≤ n then m.find k else none := by
  induction m using popLastUntil.induct (n := n) with
  | case1 m h ih =>
    rw [popLastUntil, if_pos h, ih]
    cases hl : m.lastKey with
    | none => simp [size, lastKey_none hl] at h
    | some l =>
      have hmax := lastKey_some hl
      have hpop : m.popLast = m.erase l := by simp [popLast, hl]
      rw [hpop]
      by_cases hlk : l ≤ k
      · -- everything is at or below `k`, so `k` goes in both readings
        have hall : m.keys.filter (· ≤ k) = m.keys :=
          Finset.filter_true_of_mem fun j hj => (hmax.2 j hj).trans hlk
        have hk : (m.erase l).find k = none := by
          by_cases he : k = l
          · simp [erase, he]
          · rw [erase_find_ne m he, m.find_eq_none_iff]
            exact fun hk => he (le_antisymm (hmax.2 k hk) hlk)
        have hn : ¬ m.keys.card ≤ n := by
          simp only [size] at h
          omega
        rw [hall, if_neg hn, hk, ite_self]
      · have heq : (m.erase l).keys.filter (· ≤ k) = m.keys.filter (· ≤ k) := by
          ext j
          simp only [erase_keys, Finset.mem_filter, Finset.mem_erase]
          constructor
          · exact fun hj => ⟨hj.1.2, hj.2⟩
          · exact fun hj => ⟨⟨fun he => hlk (he ▸ hj.2), hj.1⟩, hj.2⟩
        have hne : k ≠ l := fun he => hlk he.ge
        rw [heq, erase_find_ne m hne]
  | case2 m h =>
    rw [popLastUntil, if_neg h, if_pos]
    have := Finset.card_filter_le m.keys (· ≤ k)
    simp only [size] at h
    omega

theorem popFirstWhile_keys (m : OrdMap κ α) (p : κ → Bool) (k : κ) :
    k ∈ (m.popFirstWhile p).keys ↔ k ∈ m.keys ∧ ∃ j ∈ m.keys, j ≤ k ∧ p j = false := by
  rw [mem_keys, popFirstWhile_find, m.mem_keys]
  split
  · rename_i h
    exact ⟨fun hk => ⟨hk, h⟩, fun hk => hk.1⟩
  · rename_i h
    simp [h]

theorem popLastUntil_keys (m : OrdMap κ α) (n : ℕ) (k : κ) :
    k ∈ (m.popLastUntil n).keys ↔ k ∈ m.keys ∧ (m.keys.filter (· ≤ k)).card ≤ n := by
  rw [mem_keys, popLastUntil_find, m.mem_keys]
  split
  · rename_i h
    simp [h]
  · rename_i h
    simp [h]

theorem popLastUntil_size_le (m : OrdMap κ α) (n : ℕ) : (m.popLastUntil n).size ≤ n := by
  induction m using popLastUntil.induct (n := n) with
  | case1 m h ih => rwa [popLastUntil, if_pos h]
  | case2 m h =>
    rw [popLastUntil, if_neg h]
    omega

end OrdMap
