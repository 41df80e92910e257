import Deshred.View

/-!
# Lengths and fields on the wire

What the fields of the wire layout look like as bytes, and that the cursor reads exactly
these. A length is kept as the bytes have it, since the cursor takes more than one form.
-/

namespace Deshred
open Scanner View

/-! ### Lengths -/

theorem and_0x7F (b : UInt8) : (b &&& 0x7F).toNat = b.toNat % 128 := by
  rw [UInt8.toNat_and]
  exact Nat.and_two_pow_sub_one_eq_mod b.toNat 7

theorem and_0x80_eq_zero_iff (b : UInt8) : b &&& 0x80 = 0 ↔ b.toNat < 128 := by
  have hbyte : ∀ k < 256, k &&& 128 = 0 ↔ k < 128 := by decide +kernel
  rw [← UInt8.toNat_inj, UInt8.toNat_and]
  exact hbyte b.toNat b.toNat_lt

/-- At most `k` bytes, of which all but the last have the high bit. -/
def IsShortvec : ℕ → Bytes → Prop
  | 0, _ => False
  | _ + 1, [] => False
  | k + 1, byte :: rest => if byte &&& 0x80 = 0 then rest = [] else IsShortvec k rest

instance decidableIsShortvec : ∀ (k : ℕ) (bytes : Bytes), Decidable (IsShortvec k bytes)
  | 0, _ => inferInstanceAs (Decidable False)
  | _ + 1, [] => inferInstanceAs (Decidable False)
  | k + 1, byte :: rest =>
    have := decidableIsShortvec k rest
    inferInstanceAs (Decidable (if byte &&& 0x80 = 0 then rest = [] else IsShortvec k rest))

def shortvecValueFrom : List ℕ → ℕ → Bytes → ℕ
  | shift :: shifts, value, byte :: rest =>
    shortvecValueFrom shifts (value ||| ((byte &&& 0x7F).toNat <<< shift)) rest
  | _, value, _ => value

/-- The length that the bytes stand for. -/
def shortvecValue (bytes : Bytes) : ℕ := shortvecValueFrom [0, 7, 14] 0 bytes

/-- Solana's compact-u16, which has one form for each number. -/
def compactU16 (n : ℕ) : Bytes :=
  if n < 0x80 then [UInt8.ofNat n]
  else if n < 0x4000 then [UInt8.ofNat (n % 0x80 + 0x80), UInt8.ofNat (n / 0x80)]
  else [UInt8.ofNat (n % 0x80 + 0x80), UInt8.ofNat (n / 0x80 % 0x80 + 0x80), UInt8.ofNat (n / 0x4000)]

theorem shortvecValue_compactU16 {n : ℕ} (h : n ≤ 65535) : shortvecValue (compactU16 n) = n := by
  have hlow : ∀ m, m < 256 → (UInt8.ofNat m &&& 0x7F).toNat = m % 128 := by
    intro m hm
    rw [and_0x7F, UInt8.toNat_ofNat', Nat.mod_eq_of_lt hm]
  have hor : ∀ {a b k : ℕ}, a < 2 ^ k → a ||| (b <<< k) = b * 2 ^ k + a := by
    intro a b k ha
    rw [Nat.or_comm, ← Nat.shiftLeft_add_eq_or_of_lt ha, Nat.shiftLeft_eq]
  unfold compactU16
  split
  · rename_i h1
    simp only [shortvecValue, shortvecValueFrom, Nat.zero_or, Nat.shiftLeft_zero]
    rw [hlow n (by omega)]
    omega
  · split
    · rename_i h1 h2
      simp only [shortvecValue, shortvecValueFrom, Nat.zero_or, Nat.shiftLeft_zero]
      rw [hlow _ (by omega), hlow _ (by omega), hor (by omega)]
      omega
    · rename_i h1 h2
      simp only [shortvecValue, shortvecValueFrom, Nat.zero_or, Nat.shiftLeft_zero]
      rw [hlow _ (by omega), hlow _ (by omega), hlow _ (by omega), hor (show _ < 2 ^ 7 by omega)]
      rw [hor (by omega)]
      omega

theorem isShortvec_compactU16 {n : ℕ} (h : n ≤ 65535) : IsShortvec 3 (compactU16 n) := by
  have hlast : ∀ m, m < 128 → UInt8.ofNat m &&& 0x80 = 0 := by
    intro m hm
    rw [and_0x80_eq_zero_iff, UInt8.toNat_ofNat']
    omega
  have hmore : ∀ m, ¬ UInt8.ofNat (m % 0x80 + 0x80) &&& 0x80 = 0 := by
    intro m
    rw [and_0x80_eq_zero_iff, UInt8.toNat_ofNat']
    omega
  unfold compactU16
  split
  · rename_i h1
    simp only [IsShortvec, hlast n h1, ↓reduceIte]
  · split
    · rename_i h1 h2
      simp only [IsShortvec, hmore, hlast (n / 0x80) (by omega), ↓reduceIte]
    · rename_i h1 h2
      simp only [IsShortvec, hmore, hlast (n / 0x4000) (by omega), ↓reduceIte]

/- The bytes of `shortvec_len`. -/
def shortvecBytesFrom (start : ℕ) : List ℕ → Scan Bytes
  | [] => fail (.badShortVec start)
  | _ :: shifts => do
    let byte ← u8
    if byte &&& 0x80 = 0 then pure [byte] else (byte :: ·) <$> shortvecBytesFrom start shifts

def shortvecBytes : Scan Bytes := do
  let start ← offset
  shortvecBytesFrom start [0, 7, 14]

theorem shortvecFrom_eq (start : ℕ) (shifts : List ℕ) (value : ℕ) :
    shortvecFrom start shifts value = shortvecValueFrom shifts value <$> shortvecBytesFrom start shifts := by
  induction shifts generalizing value with
  | nil => rfl
  | cons shift shifts ih =>
    rw [shortvecFrom, shortvecBytesFrom, map_bind]
    apply bind_congr
    intro byte
    split
    · rw [map_pure]
      cases shifts <;> rfl
    · rw [ih, Functor.map_map]
      rfl

theorem shortvecLen_eq : shortvecLen = shortvecValue <$> shortvecBytes := by
  rw [shortvecLen, shortvecBytes, map_bind]
  apply bind_congr
  intro start
  exact shortvecFrom_eq start _ _

/-! ### Fields -/

theorem codec_u8 : Codec u8 (fun b => [b]) fun _ => True := by
  refine (Codec.take ViewError.truncated 1).map _ (fun s hs => ?_) fun b => ?_
  · obtain ⟨b, rfl⟩ := List.length_eq_one_iff.mp hs
    rfl
  · exact ⟨fun _ => ⟨[b], rfl, rfl⟩, fun _ => trivial⟩

theorem codec_u64 : Codec u64 (leBytes 8) fun n => n < 2 ^ 64 := by
  refine (Codec.take ViewError.truncated 8).map _ (fun s hs => ?_) fun n => ?_
  · have hle := leBytes_leVal s
    rwa [hs] at hle
  · constructor
    · exact fun h => ⟨leBytes 8 n, leBytes_length 8 n, leVal_leBytes 8 n h⟩
    · rintro ⟨s, hs, rfl⟩
      have hlt := leVal_lt s
      rwa [hs] at hlt

theorem codec_u32 : Codec u32 (fun n => leBytes 4 n.toNat) fun _ => True := by
  refine (Codec.take ViewError.truncated 4).map _ (fun s hs => ?_) fun n => ?_
  · have hle := leBytes_leVal s
    have hlt := leVal_lt s
    rw [hs] at hle hlt
    have hmod : leVal s % 2 ^ 32 = leVal s := Nat.mod_eq_of_lt hlt
    rwa [UInt32.toNat_ofNat', hmod]
  · refine ⟨fun _ => ⟨leBytes 4 n.toNat, leBytes_length 4 _, ?_⟩, fun _ => trivial⟩
    rw [leVal_leBytes 4 _ n.toNat_lt, UInt32.ofNat_toNat]

theorem codec_shortvecBytesFrom (start : ℕ) (shifts : List ℕ) :
    Codec (shortvecBytesFrom start shifts) (fun b => b) (IsShortvec shifts.length) := by
  induction shifts with
  | nil => exact Codec.fail _ fun _ h => h
  | cons shift shifts ih =>
    refine CodecOn.step (fun g => g.headD 0) (fun g => g.tail) codec_u8 (fun _ _ => trivial) ?_ fun byte _ => ?_
    · intro g hg
      cases g with
      | nil => exact absurd hg id
      | cons byte rest => rfl
    · split
      · rename_i hlast
        apply Codec.pure rfl
        intro g
        cases g with
        | nil => simp [IsShortvec]
        | cons byte' rest =>
          constructor
          · rintro ⟨hg, rfl⟩
            rw [List.headD_cons] at hlast ⊢
            rw [List.length_cons, IsShortvec, if_pos hlast] at hg
            rw [hg]
          · rintro ⟨rfl, rfl⟩
            rw [List.length_cons, IsShortvec, if_pos hlast]
            exact ⟨rfl, rfl⟩
      · rename_i hmore
        refine ih.map _ (fun _ _ => rfl) fun g => ?_
        cases g with
        | nil => simp [IsShortvec]
        | cons byte' rest =>
          constructor
          · rintro ⟨hg, rfl⟩
            rw [List.headD_cons] at hmore ⊢
            rw [List.length_cons, IsShortvec, if_neg hmore] at hg
            exact ⟨rest, hg, rfl⟩
          · intro ⟨a, ha, heq⟩
            cases heq
            rw [List.length_cons, IsShortvec, if_neg hmore]
            exact ⟨ha, rfl⟩

theorem codec_shortvecBytes : Codec shortvecBytes (fun b => b) (IsShortvec 3) :=
  Codec.offset fun start => codec_shortvecBytesFrom start [0, 7, 14]

/-- A vector behind its length; the length is kept as the bytes have it. -/
structure ShortVec (α : Type) where
  lengthBytes : Bytes
  items : List α

namespace ShortVec
variable {α : Type}

def encode (encItems : List α → Bytes) (v : ShortVec α) : Bytes := v.lengthBytes ++ encItems v.items

structure Valid (V : List α → Prop) (v : ShortVec α) : Prop where
  length : IsShortvec 3 v.lengthBytes
  count : v.items.length = shortvecValue v.lengthBytes
  items : V v.items

/-- The length is in its one compact form. -/
structure Canonical (v : ShortVec α) : Prop where
  lengthBytes : v.lengthBytes = compactU16 v.items.length
  items : v.items.length ≤ 65535

/- The same items behind the compact form of their number. -/
def compact (v : ShortVec α) : ShortVec α := ⟨compactU16 v.items.length, v.items⟩

end ShortVec

def readShortVec {α : Type} (readItems : ℕ → Scan (List α)) : Scan (ShortVec α) := do
  let lengthBytes ← shortvecBytes
  let items ← readItems (shortvecValue lengthBytes)
  pure ⟨lengthBytes, items⟩

theorem codec_shortVec {α : Type} {readItems : ℕ → Scan (List α)} {encItems : List α → Bytes} {V : List α → Prop}
    (h : ∀ n, Codec (readItems n) encItems fun as => as.length = n ∧ V as) :
    Codec (readShortVec readItems) (ShortVec.encode encItems) (ShortVec.Valid V) := by
  refine CodecOn.step (fun v => v.lengthBytes) (fun v => encItems v.items) codec_shortvecBytes (fun v hv => hv.length)
    (fun v _ => rfl) fun raw hraw => ?_
  refine CodecOn.step (fun v => v.items) (fun _ => []) (h _) ?_ (fun v _ => (List.append_nil _).symm) fun items hitems => ?_
  · rintro v ⟨hv, rfl⟩
    exact ⟨hv.count, hv.items⟩
  · apply Codec.pure rfl
    intro v
    constructor
    · rintro ⟨⟨_, rfl⟩, rfl⟩
      rfl
    · rintro rfl
      exact ⟨⟨⟨hraw, hitems.1, hitems.2⟩, rfl⟩, rfl⟩

theorem codec_bytes : Codec (readShortVec take) (ShortVec.encode fun b => b) (ShortVec.Valid fun _ => True) :=
  codec_shortVec fun n => (Codec.take _ n).congr (fun _ => (and_true _).symm ▸ Iff.rfl) fun _ _ => rfl

theorem codec_chunkVec (k : ℕ) :
    Codec (readShortVec (chunks k)) (ShortVec.encode List.flatten) (ShortVec.Valid fun ss => ∀ s ∈ ss, s.length = k) :=
  codec_shortVec fun n => Codec.chunks _ k n

theorem codec_itemVec {α : Type} {p : Scan α} {enc : α → Bytes} {V : α → Prop} (hp : Codec p enc V) :
    Codec (readShortVec (collect p)) (ShortVec.encode (·.flatMap enc)) (ShortVec.Valid fun as => ∀ a ∈ as, V a) :=
  codec_shortVec fun n => Codec.collect hp n

end Deshred
