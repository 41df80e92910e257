import Mathlib.Data.List.Basic
import Mathlib.Tactic.Ring

/-!
# Byte strings

Datagrams and their parts are lists of bytes. A slice `&b[lo..hi]` takes the fact
that its bounds lie inside `b` as an argument: where the source would panic there
is no value here. Numbers on the wire are little-endian.
-/

namespace Deshred

abbrev Bytes := List UInt8

/-- `&b[lo..hi]`. -/
def slice (b : Bytes) (lo hi : ℕ) (_ : lo ≤ hi ∧ hi ≤ b.length) : Bytes := (b.drop lo).take (hi - lo)

@[simp] theorem slice_length (b : Bytes) (lo hi : ℕ) (h : lo ≤ hi ∧ hi ≤ b.length) :
    (slice b lo hi h).length = hi - lo := by
  simp only [slice, List.length_take, List.length_drop]
  omega

theorem slice_congr {a b : Bytes} {k lo hi : ℕ} (heq : a.take k = b.take k) (hk : hi ≤ k)
    (ha : lo ≤ hi ∧ hi ≤ a.length) (hb : lo ≤ hi ∧ hi ≤ b.length) :
    slice a lo hi ha = slice b lo hi hb := by
  have hcut : ∀ c : Bytes, (c.drop lo).take (hi - lo) = ((c.take k).drop lo).take (hi - lo) := by
    intro c
    rw [List.drop_take, List.take_take]
    congr 1
    omega
  simp only [slice]
  rw [hcut a, hcut b, heq]

theorem slice_append {b : Bytes} {lo mid hi : ℕ} (h1 : lo ≤ mid ∧ mid ≤ b.length) (h2 : mid ≤ hi ∧ hi ≤ b.length)
    (h3 : lo ≤ hi ∧ hi ≤ b.length) : slice b lo mid h1 ++ slice b mid hi h2 = slice b lo hi h3 := by
  have hmid : hi - lo = (mid - lo) + (hi - mid) := by omega
  have hdrop : b.drop mid = (b.drop lo).drop (mid - lo) := by
    rw [List.drop_drop]
    congr 1
    omega
  simp only [slice]
  rw [hmid, hdrop, List.take_add]

theorem slice_full (b : Bytes) : slice b 0 b.length ⟨Nat.zero_le _, le_rfl⟩ = b := by
  simp [slice]

/-- Value of a little-endian byte string. -/
def leVal : Bytes → ℕ
  | [] => 0
  | b :: rest => b.toNat + 256 * leVal rest

/-- The `n` low bytes of `v`, least significant first. -/
def leBytes : ℕ → ℕ → Bytes
  | 0, _ => []
  | n + 1, v => UInt8.ofNat v :: leBytes n (v / 256)

/-- The `n`-byte number at offset `off`. -/
def leAt (b : Bytes) (off n : ℕ) : ℕ := leVal ((b.drop off).take n)

def u8At (b : Bytes) (off : ℕ) : UInt8 := b.getD off 0
def u16At (b : Bytes) (off : ℕ) : ℕ := leAt b off 2
def u32At (b : Bytes) (off : ℕ) : ℕ := leAt b off 4
def u64At (b : Bytes) (off : ℕ) : ℕ := leAt b off 8

@[simp] theorem leBytes_length (n v : ℕ) : (leBytes n v).length = n := by
  induction n generalizing v with
  | zero => rfl
  | succ n ih => simp [leBytes, ih]

theorem leVal_lt (b : Bytes) : leVal b < 256 ^ b.length := by
  induction b with
  | nil => simp [leVal]
  | cons x rest ih =>
    have hx := x.toNat_lt
    simp only [leVal, List.length_cons, pow_succ]
    omega

theorem leVal_leBytes (n v : ℕ) (h : v < 256 ^ n) : leVal (leBytes n v) = v := by
  induction n generalizing v with
  | zero =>
    simp only [leBytes, leVal]
    omega
  | succ n ih =>
    have hdiv : v / 256 < 256 ^ n := by
      rw [pow_succ] at h
      omega
    simp only [leBytes, leVal, ih _ hdiv, UInt8.toNat_ofNat']
    omega

theorem leBytes_leVal (b : Bytes) : leBytes b.length (leVal b) = b := by
  induction b with
  | nil => rfl
  | cons x rest ih =>
    have hx := x.toNat_lt
    have hdiv : (x.toNat + 256 * leVal rest) / 256 = leVal rest := by omega
    have hlow : UInt8.ofNat (x.toNat + 256 * leVal rest) = x := by
      rw [← UInt8.toNat_inj, UInt8.toNat_ofNat']
      omega
    simp only [leVal, List.length_cons, leBytes, hdiv, hlow, ih]

theorem leAt_lt (b : Bytes) (off n : ℕ) : leAt b off n < 256 ^ n := by
  have hlen : ((b.drop off).take n).length ≤ n := by simp
  calc leAt b off n < 256 ^ ((b.drop off).take n).length := leVal_lt _
    _ ≤ 256 ^ n := Nat.pow_le_pow_right (by norm_num) hlen

theorem leAt_take (b : Bytes) {k off n : ℕ} (h : off + n ≤ k) : leAt (b.take k) off n = leAt b off n := by
  simp only [leAt, List.drop_take, List.take_take]
  congr 2
  omega

theorem u8At_take (b : Bytes) {k off : ℕ} (h : off < k) : u8At (b.take k) off = u8At b off := by
  simp only [u8At, List.getD_eq_getElem?_getD, List.getElem?_take, h, ↓reduceIte]

theorem leAt_leBytes (front rest : Bytes) {n v : ℕ} (h : v < 256 ^ n) :
    leAt (front ++ leBytes n v ++ rest) front.length n = v := by
  simp only [leAt, List.append_assoc, List.drop_left]
  rw [List.take_left' (leBytes_length n v), leVal_leBytes n v h]

end Deshred
