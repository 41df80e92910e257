import Deshred.LeaderSlot
import Deshred.Sealing

/-!
# A set whose code shreds are easy to write down

`galois_8` evaluates, for each byte of a shard, the polynomial through the 32 data
bytes at the elements 0, 1, .., 63. In the sets below every byte is the same in all
shards or counts up with the position, so the polynomials are constants and `x` plus a
constant, and code shard `k` is what a data shred with index `32 + k` would be.
-/

namespace Deshred

/-- What the shreds of such a set have in common, and how the index counts. -/
structure Counting where
  slot : ℕ
  fecSetIndex : ℕ
  index : ℕ → ℕ
  version : ℕ → ℕ
  size : ℕ
  payload : Bytes

namespace Counting

structure Valid (C : Counting) : Prop where
  slot : C.slot < 2 ^ 64
  fecSetIndex : C.fecSetIndex % 32 = 0 ∧ C.fecSetIndex ≤ 32736
  index : ∀ p : Fin 32, C.index p = C.fecSetIndex + p
  version : ∀ p : Fin 32, C.version p < 2 ^ 16
  size : 88 ≤ C.size ∧ C.size ≤ 88 + 963
  payload : C.payload.length = 963

/- The erasure shard number `k`. -/
def shard (C : Counting) (k : ℕ) : Bytes :=
  [0x96] ++ leBytes 8 C.slot ++ leBytes 4 (C.index k) ++ leBytes 2 (C.version k) ++ leBytes 4 C.fecSetIndex ++
    leBytes 2 (min C.slot 1) ++ [flagDataComplete] ++ leBytes 2 C.size ++ C.payload

def codeword (C : Counting) : List Bytes := (List.range 64).map C.shard

/- Every shred ends a run. -/
def draft (C : Counting) (codeVersion : ℕ) : SetDraft where
  signature := ⟨List.replicate 64 0, Signature.zero_length⟩
  slot := C.slot
  fecSetIndex := C.fecSetIndex
  version
    | .data p => C.version p
    | .code _ => codeVersion
  parentOffset := min C.slot 1
  flags := fun _ => flagDataComplete
  size := fun _ => C.size
  payload := fun _ => C.payload
  shard := fun p => C.shard (32 + p)
  chainedMerkleRoot := List.replicate 32 0

variable {C : Counting}

theorem shard_length (h : C.payload.length = 963) (k : ℕ) : (C.shard k).length = 987 := by
  simp only [shard, List.length_append, leBytes_length, List.length_singleton, h]

theorem Valid.draft (h : C.Valid) {codeVersion : ℕ} (hc : codeVersion < 2 ^ 16) : (C.draft codeVersion).Valid where
  slot := h.slot
  fecSetIndex := h.fecSetIndex
  version
    | .data p => h.version p
    | .code _ => hc
  parent := by
    simp only [Counting.draft]
    omega
  flags p := by
    show (flagDataComplete &&& 0x80 ≠ 0 → flagDataComplete &&& flagDataComplete ≠ 0) ∧
      (flagDataComplete &&& flagLastInSlot = flagLastInSlot → (p : ℕ) = 31)
    exact ⟨by decide, fun h => absurd h (by decide)⟩
  size _ := h.size
  payload _ := h.payload
  shard p := shard_length h.payload (32 + p)
  chainedMerkleRoot := List.length_replicate

theorem draft_erasureShards (h : ∀ p : Fin 32, C.index p = C.fecSetIndex + p) (codeVersion : ℕ) :
    Position.all.map (C.draft codeVersion).erasureShard = C.codeword := by
  have hone : ∀ q : Position, (C.draft codeVersion).erasureShard q = C.shard q.erasureIndex := by
    intro q
    cases q with
    | data p =>
      have hindex : (C.draft codeVersion).fecSetIndex + (p : ℕ) = C.index p := (h p).symm
      rw [SetDraft.erasureShard, hindex]
      rfl
    | code p => rfl
  have hindex : Position.all.map Position.erasureIndex = List.range 64 := by decide
  rw [codeword, ← hindex, List.map_map]
  exact List.map_congr_left fun q _ => hone q

theorem codeword_length (C : Counting) : C.codeword.length = 64 := by
  simp [codeword]

/- Set 0 of a slot, with shreds that carry twelve zero bytes; the version may count along. -/
def line (slot : ℕ) (version : ℕ → ℕ) : Counting where
  slot := slot
  fecSetIndex := 0
  index k := k
  version := version
  size := 100
  payload := List.replicate 963 0

theorem line_valid {slot : ℕ} {version : ℕ → ℕ} (hs : slot < 2 ^ 64) (hv : ∀ k < 32, version k < 2 ^ 16) :
    (line slot version).Valid where
  slot := hs
  fecSetIndex := ⟨rfl, Nat.zero_le _⟩
  index p := (Nat.zero_add _).symm
  version p := hv p p.isLt
  size := by
    show 88 ≤ 100 ∧ 100 ≤ 88 + 963
    decide
  payload := List.length_replicate

theorem aligned_xor {f k : ℕ} (hf : f % 32 = 0) (hk : k < 32) : f ^^^ k = f + k := by
  have hdiv : (f ^^^ k) / 2 ^ 5 = f / 32 := by
    rw [Nat.xor_div_two_pow, Nat.div_eq_of_lt (show k < 2 ^ 5 from hk), Nat.xor_zero]
  have hmod : (f ^^^ k) % 2 ^ 5 = k := by
    rw [Nat.xor_mod_two_pow, Nat.mod_eq_of_lt (show k < 2 ^ 5 from hk), show f % 2 ^ 5 = 0 from hf, Nat.zero_xor]
  omega

/- The literals of `Fin 1024`. -/
instance carrying.neZero : NeZero 1024 := ⟨by decide⟩

/- Set number `n` of a slot, each of its shreds with the bytes `content`. -/
def carrying (slot : ℕ) (n : Fin 1024) (content : Bytes) : Counting where
  slot := slot
  fecSetIndex := 32 * n
  index k := 32 * n ^^^ k
  version := fun _ => 0
  size := 88 + content.length
  payload := content ++ List.replicate (963 - content.length) 0

theorem carrying_valid {slot : ℕ} (hs : slot < 2 ^ 64) (n : Fin 1024) {content : Bytes} (hc : content.length ≤ 963) :
    (carrying slot n content).Valid where
  slot := hs
  fecSetIndex := by
    show 32 * (n : ℕ) % 32 = 0 ∧ 32 * (n : ℕ) ≤ 32736
    omega
  index p := aligned_xor (Nat.mul_mod_right 32 n) p.isLt
  version _ := Nat.two_pow_pos 16
  size := by
    show 88 ≤ 88 + content.length ∧ 88 + content.length ≤ 88 + 963
    omega
  payload := by
    show (content ++ List.replicate (963 - content.length) 0).length = 963
    rw [List.length_append, List.length_replicate, Nat.add_sub_cancel' hc]

theorem carrying_set_byte (slot : ℕ) (n : Fin 1024) (content : Bytes) (k : ℕ) :
    ((carrying slot n content).shard k)[15]? = some (UInt8.ofNat (32 * n)) := by
  rfl

end Counting

def lineShard (slot : ℕ) (version : ℕ → ℕ) (k : ℕ) : Bytes := (Counting.line slot version).shard k

def lineCodeword (slot : ℕ) (version : ℕ → ℕ) : List Bytes := (Counting.line slot version).codeword

def SetDraft.line (slot : ℕ) (version : ℕ → ℕ) (codeVersion : ℕ) : SetDraft :=
  (Counting.line slot version).draft codeVersion

theorem SetDraft.line_valid {slot codeVersion : ℕ} {version : ℕ → ℕ} (hs : slot < 2 ^ 64)
    (hv : ∀ k < 32, version k < 2 ^ 16) (hc : codeVersion < 2 ^ 16) : (SetDraft.line slot version codeVersion).Valid :=
  (Counting.line_valid hs hv).draft hc

theorem SetDraft.line_erasureShards (slot : ℕ) (version : ℕ → ℕ) (codeVersion : ℕ) :
    Position.all.map (SetDraft.line slot version codeVersion).erasureShard = lineCodeword slot version :=
  Counting.draft_erasureShards (fun p => (Nat.zero_add (p : ℕ)).symm) codeVersion

theorem lineCodeword_length (slot : ℕ) (version : ℕ → ℕ) : (lineCodeword slot version).length = 64 :=
  Counting.codeword_length _

/-! ### Decoding one codeword -/

/- The shards are those of the codeword, as far as they are present. -/
def agreesWith (codeword : List Bytes) (shards : List (Bytes × Bool)) : Bool :=
  shards.length = codeword.length &&
    (shards.zip codeword).all fun x => x.1.1.length = x.2.length && (!x.1.2 || x.1.1 = x.2)

/- Data positions filled from the codeword, the rest as it came. -/
def fillData (codeword : List Bytes) (shards : List (Bytes × Bool)) : List (Bytes × Bool) :=
  List.zipWith (fun s c => (c, s.2)) (shards.take 32) (codeword.take 32) ++ shards.drop 32

theorem agreesWith_getElem {codeword : List Bytes} {shards : List (Bytes × Bool)}
    (h : agreesWith codeword shards = true) {i : ℕ} {s : Bytes × Bool} (hs : shards[i]? = some s) :
    ∃ c, codeword[i]? = some c ∧ s.1.length = c.length ∧ (s.2 = true → s.1 = c) := by
  simp only [agreesWith, Bool.and_eq_true, decide_eq_true_eq, List.all_eq_true] at h
  obtain ⟨hlen, hall⟩ := h
  have hi : i < codeword.length := by
    rw [← hlen]
    exact (List.getElem?_eq_some_iff.mp hs).1
  have hc : codeword[i]? = some codeword[i] := List.getElem?_eq_getElem hi
  have hzip : (s, codeword[i]) ∈ shards.zip codeword := by
    have hget : (shards.zip codeword)[i]? = some (s, codeword[i]) := by
      rw [List.getElem?_zip_eq_some]
      exact ⟨hs, hc⟩
    exact List.mem_of_getElem? hget
  have hone := hall _ hzip
  simp only [Bool.or_eq_true, Bool.not_eq_true', decide_eq_true_eq] at hone
  refine ⟨codeword[i], hc, hone.1, fun hp => ?_⟩
  rcases hone.2 with hf | he
  · rw [hp] at hf
    contradiction
  · exact he

theorem fillData_length {codeword : List Bytes} {shards : List (Bytes × Bool)}
    (h : agreesWith codeword shards = true) : (fillData codeword shards).length = shards.length := by
  simp only [agreesWith, Bool.and_eq_true, decide_eq_true_eq] at h
  simp only [fillData, List.length_append, List.length_zipWith, List.length_take, List.length_drop, h.1]
  omega

theorem fillData_getElem {codeword : List Bytes} {shards : List (Bytes × Bool)}
    (h : agreesWith codeword shards = true) (i : ℕ) : (fillData codeword shards)[i]? =
      if i < 32 then (shards[i]?.bind fun s => codeword[i]?.map fun c => (c, s.2)) else shards[i]? := by
  by_cases hin : i < shards.length
  · have hlen : shards.length = codeword.length := by
      simp only [agreesWith, Bool.and_eq_true, decide_eq_true_eq] at h
      exact h.1
    have hzlen : (List.zipWith (fun (s : Bytes × Bool) c => (c, s.2)) (shards.take 32) (codeword.take 32)).length =
        min 32 shards.length := by
      simp [hlen]
    rw [fillData]
    by_cases hi : i < 32
    · rw [if_pos hi, List.getElem?_append_left (by omega), List.getElem?_zipWith]
      simp only [List.getElem?_take, hi, ↓reduceIte]
      cases shards[i]? <;> cases codeword[i]? <;> rfl
    · rw [if_neg hi, List.getElem?_append_right (by omega), hzlen, Nat.min_eq_left (by omega), List.getElem?_drop]
      congr 1
      omega
  · have hout := Nat.not_lt.mp hin
    have hnone : (fillData codeword shards)[i]? = none := List.getElem?_eq_none (by rwa [fillData_length h])
    rw [hnone, List.getElem?_eq_none hout]
    split
    · rfl
    · rfl

theorem fillData_keeps {codeword : List Bytes} {shards : List (Bytes × Bool)}
    (h : agreesWith codeword shards = true) : Keeps shards (fillData codeword shards) where
  flags := by
    apply List.ext_getElem?
    intro i
    rw [List.getElem?_map, List.getElem?_map, fillData_getElem h]
    split
    · cases hs : shards[i]? with
      | none => rfl
      | some s =>
        obtain ⟨c, hc, _⟩ := agreesWith_getElem h hs
        simp [hc]
    · rfl
  lengths := by
    apply List.ext_getElem?
    intro i
    rw [List.getElem?_map, List.getElem?_map, fillData_getElem h]
    split
    · cases hs : shards[i]? with
      | none => rfl
      | some s =>
        obtain ⟨c, hc, hl, _⟩ := agreesWith_getElem h hs
        simp [hc, hl]
    · rfl
  present i b hs := by
    rw [fillData_getElem h, hs]
    split
    · obtain ⟨c, hc, _, hb⟩ := agreesWith_getElem h hs
      have hbc : b = c := hb rfl
      simp [hc, hbc]
    · rfl

/-- A decoder that knows one codeword. -/
def ReedSolomon.table (codeword : List Bytes) : ReedSolomon where
  reconstructData shards :=
    if agreesWith codeword shards ∧ 32 ≤ shards.countP Prod.snd then some (fillData codeword shards) else none
  keeps shards out h := by
    split at h
    · rename_i hc
      rw [← Option.some.inj h]
      exact fillData_keeps hc.1
    · contradiction

theorem ReedSolomon.table_rebuilds {codeword : List Bytes} (hlen : codeword.length = 64) :
    (ReedSolomon.table codeword).Rebuilds (· = codeword) := by
  intro cw shards hcw hshards hpresent hlengths hcount
  subst hcw
  have hagree : agreesWith cw shards = true := by
    simp only [agreesWith, Bool.and_eq_true, decide_eq_true_eq, List.all_eq_true, Bool.or_eq_true,
      Bool.not_eq_true']
    refine ⟨hshards.trans hlen.symm, ?_⟩
    intro x hx
    obtain ⟨i, hi⟩ := List.mem_iff_getElem?.mp hx
    rw [List.getElem?_zip_eq_some] at hi
    refine ⟨hlengths x.1 (List.mem_of_getElem? hi.1) x.2 (List.mem_of_getElem? hi.2), ?_⟩
    cases hp : x.1.2 with
    | false => exact .inl rfl
    | true =>
      right
      have hs : shards[i]? = some (x.1.1, true) := by
        rw [hi.1, ← hp]
      have hc := hpresent i x.1.1 hs
      rw [hi.2] at hc
      exact (Option.some.inj hc).symm
  refine ⟨fillData cw shards, by simp only [ReedSolomon.table, hagree, hcount, and_self, ↓reduceIte], ?_⟩
  apply List.ext_getElem?
  intro i
  rw [List.getElem?_take, List.getElem?_take]
  split
  · rename_i hi
    have hs : shards[i]? = some shards[i] := List.getElem?_eq_getElem (by omega)
    have hc : cw[i]? = some cw[i] := List.getElem?_eq_getElem (by omega)
    rw [List.getElem?_map, fillData_getElem hagree, if_pos hi, hs, hc]
    rfl
  · rfl

/-- The second decoder gets what the first one gives up on. -/
def ReedSolomon.orElse (first second : ReedSolomon) : ReedSolomon where
  reconstructData shards := (first.reconstructData shards).orElse fun _ => second.reconstructData shards
  keeps shards out h := by
    cases hf : first.reconstructData shards with
    | some found =>
      rw [hf, Option.orElse_some] at h
      exact first.keeps shards out (hf.trans h)
    | none =>
      rw [hf, Option.orElse_none] at h
      exact second.keeps shards out h

theorem ReedSolomon.orElse_reconstructData (first second : ReedSolomon) (shards : List (Bytes × Bool)) :
    (first.orElse second).reconstructData shards =
      (first.reconstructData shards).orElse fun _ => second.reconstructData shards := rfl

/- The codewords nowhere have the same shard. -/
def Apart (codeword other : List Bytes) : Prop :=
  ∀ (i : ℕ) (b : Bytes), codeword[i]? = some b → other[i]? ≠ some b

/-- A table gives up on the shards of a codeword apart from its own. -/
theorem ReedSolomon.table_none {codeword other : List Bytes} {shards : List (Bytes × Bool)} (hne : Apart codeword other)
    (hpresent : ∀ (i : ℕ) (b : Bytes), shards[i]? = some (b, true) → other[i]? = some b)
    (hcount : 32 ≤ shards.countP Prod.snd) : (ReedSolomon.table codeword).reconstructData shards = none := by
  have hno : ¬ (agreesWith codeword shards = true ∧ 32 ≤ shards.countP Prod.snd) := by
    intro ⟨hagree, _⟩
    obtain ⟨s, hs, hflag⟩ := List.countP_pos_iff.mp (show 0 < shards.countP Prod.snd by omega)
    obtain ⟨i, hi⟩ := List.mem_iff_getElem?.mp hs
    obtain ⟨b, hb, _, heq⟩ := agreesWith_getElem hagree hi
    have hsb : s = (b, true) := Prod.ext (heq hflag) hflag
    exact hne i b hb (hpresent i b (hi.trans (congrArg some hsb)))
  exact if_neg hno

/-- Two codewords that nowhere have the same shard are told apart. -/
theorem ReedSolomon.table_orElse_rebuilds {codeword other : List Bytes} (hlen : codeword.length = 64)
    (hlen' : other.length = 64) (hne : Apart codeword other) :
    ((ReedSolomon.table codeword).orElse (ReedSolomon.table other)).Rebuilds fun c => c = codeword ∨ c = other := by
  intro c shards hc hshards hpresent hlengths hcount
  rcases hc with rfl | rfl
  · obtain ⟨out, hout, htake⟩ := ReedSolomon.table_rebuilds hlen c shards rfl hshards hpresent hlengths hcount
    exact ⟨out, by rw [orElse_reconstructData, hout, Option.orElse_some], htake⟩
  · obtain ⟨out, hout, htake⟩ := ReedSolomon.table_rebuilds hlen' c shards rfl hshards hpresent hlengths hcount
    have hnone := ReedSolomon.table_none hne hpresent hcount
    exact ⟨out, by rw [orElse_reconstructData, hnone, Option.orElse_none, hout], htake⟩

/- A decoder that knows several codewords. -/
def ReedSolomon.tables : List (List Bytes) → ReedSolomon
  | [] => ReedSolomon.failing
  | codeword :: rest => (ReedSolomon.table codeword).orElse (ReedSolomon.tables rest)

theorem ReedSolomon.tables_rebuilds {codewords : List (List Bytes)} (hlen : ∀ c ∈ codewords, c.length = 64)
    (hne : codewords.Pairwise Apart) : (ReedSolomon.tables codewords).Rebuilds (· ∈ codewords) := by
  induction codewords with
  | nil => exact fun c shards hc => absurd hc (List.not_mem_nil)
  | cons codeword rest ih =>
    obtain ⟨hfirst, hrest⟩ := List.pairwise_cons.mp hne
    intro c shards hc hshards hpresent hlengths hcount
    rcases List.mem_cons.mp hc with rfl | hc
    · have hlen' := hlen c (List.mem_cons_self ..)
      obtain ⟨out, hout, htake⟩ := ReedSolomon.table_rebuilds hlen' c shards rfl hshards hpresent hlengths hcount
      exact ⟨out, by rw [tables, orElse_reconstructData, hout, Option.orElse_some], htake⟩
    · have hnone := ReedSolomon.table_none (hfirst c hc) hpresent hcount
      obtain ⟨out, hout, htake⟩ := ih (fun c hc => hlen c (List.mem_cons_of_mem _ hc)) hrest c shards hc hshards
        hpresent hlengths hcount
      exact ⟨out, by rw [tables, orElse_reconstructData, hnone, Option.orElse_none, hout], htake⟩

theorem lineShard_slot_byte (slot : ℕ) (version : ℕ → ℕ) (k : ℕ) :
    (lineShard slot version k)[1]? = some (UInt8.ofNat slot) := by
  rfl

theorem lineCodeword_apart {slot slot' : ℕ} (h : UInt8.ofNat slot ≠ UInt8.ofNat slot') (version : ℕ → ℕ) :
    Apart (lineCodeword slot version) (lineCodeword slot' version) := by
  intro i b hb hb'
  simp only [lineCodeword, Counting.codeword, List.getElem?_map, Option.map_eq_some_iff] at hb hb'
  obtain ⟨k, hk, rfl⟩ := hb
  obtain ⟨k', hk', heq⟩ := hb'
  have hbyte : (lineShard slot' version k')[1]? = (lineShard slot version k)[1]? := congrArg (fun b : Bytes => b[1]?) heq
  simp only [lineShard_slot_byte, Option.some.injEq] at hbyte
  exact h hbyte.symm

/-! ### A sample set -/

theorem sampleSlot_lt : 7 < 2 ^ 64 := by decide

section
variable [Hasher]

/- Set 0 of a slot, every shred a run of its own. -/
def lineSet (slot : ℕ) (hs : slot < 2 ^ 64) : LeaderSet :=
  (SetDraft.line slot (fun _ => 0) 0).sealedSet
    (SetDraft.line_valid hs (fun _ _ => Nat.two_pow_pos 16) (Nat.two_pow_pos 16))

theorem lineSet_consistent {slot : ℕ} (hs : slot < 2 ^ 64) :
    (lineSet slot hs).Consistent (· = lineCodeword slot fun _ => 0) slot 0 0 := by
  refine SetDraft.sealedSet_consistent _ ?_ (SetDraft.line_erasureShards ..)
  intro q
  cases q <;> rfl

theorem lineSet_dataComplete {slot : ℕ} (hs : slot < 2 ^ 64) (p : Fin 32) :
    ((lineSet slot hs).data p).dataComplete = true := by
  rw [lineSet, SetDraft.sealedSet_dataComplete]
  show (flagDataComplete &&& flagDataComplete ≠ 0 : Bool) = true
  decide

/-! ### A sample block -/

/- Set number `n` of a slot, every shred a run of its own with the bytes `content`. -/
def carriedSet {slot : ℕ} (hs : slot < 2 ^ 64) (n : Fin 1024) {content : Bytes} (hc : content.length ≤ 963) : LeaderSet :=
  ((Counting.carrying slot n content).draft 0).sealedSet ((Counting.carrying_valid hs n hc).draft (Nat.two_pow_pos 16))

/- The first two sets. -/
def carriedBlock {slot : ℕ} (hs : slot < 2 ^ 64) {content : Bytes} (hc : content.length ≤ 963) : Block := fun f =>
  if f = 0 then some (carriedSet hs 0 hc) else if f = 32 then some (carriedSet hs 1 hc) else none

omit [Hasher] in
theorem nil_fits : ([] : Bytes).length ≤ 963 := Nat.zero_le _

omit [Hasher] in
/- The codewords of the two sets. -/
def CarriedCodeword (slot : ℕ) (content : Bytes) (c : List Bytes) : Prop :=
  c = (Counting.carrying slot 0 content).codeword ∨ c = (Counting.carrying slot 1 content).codeword

omit [Hasher] in
def carriedRs (slot : ℕ) (content : Bytes) : ReedSolomon :=
  (ReedSolomon.table (Counting.carrying slot 0 content).codeword).orElse
    (ReedSolomon.table (Counting.carrying slot 1 content).codeword)

omit [Hasher] in
theorem carriedRs_rebuilds (slot : ℕ) (content : Bytes) :
    (carriedRs slot content).Rebuilds (CarriedCodeword slot content) := by
  refine ReedSolomon.table_orElse_rebuilds (Counting.codeword_length _) (Counting.codeword_length _) ?_
  intro i b hb hb'
  simp only [Counting.codeword, List.getElem?_map, Option.map_eq_some_iff] at hb hb'
  obtain ⟨k, _, rfl⟩ := hb
  obtain ⟨k', _, heq⟩ := hb'
  have hbyte := congrArg (fun b : Bytes => b[15]?) heq
  simp only [Counting.carrying_set_byte, Option.some.injEq] at hbyte
  exact absurd hbyte (by decide)

variable {slot : ℕ} (hs : slot < 2 ^ 64) {content : Bytes} (hc : content.length ≤ 963)

theorem carriedSet_consistent (n : Fin 1024) : (carriedSet hs n hc).Consistent
    (· = (Counting.carrying slot n content).codeword) slot 0 (32 * n) := by
  refine SetDraft.sealedSet_consistent _ (fun q => ?_) ?_
  · cases q <;> rfl
  · exact Counting.draft_erasureShards (Counting.carrying_valid hs n hc).index 0

theorem carriedSet_dataComplete (n : Fin 1024) (p : Fin 32) : ((carriedSet hs n hc).data p).dataComplete = true := by
  rw [carriedSet, SetDraft.sealedSet_dataComplete]
  show (flagDataComplete &&& flagDataComplete ≠ 0 : Bool) = true
  decide

theorem carriedBlock_consistent : (carriedBlock hs hc).Consistent (CarriedCodeword slot content) slot 0 := by
  intro f S hS
  simp only [carriedBlock] at hS
  split at hS
  · rename_i hf
    rw [← Option.some.inj hS, hf]
    exact (carriedSet_consistent hs hc 0).mono fun c hc => .inl hc
  · split at hS
    · rename_i hf
      rw [← Option.some.inj hS, hf]
      exact (carriedSet_consistent hs hc 1).mono fun c hc => .inr hc
    · contradiction

theorem carriedBlock_sends (q : Position) : (carriedBlock hs hc).Sends ((carriedSet hs 0 hc).shred q) ∧
    (carriedBlock hs hc).Sends ((carriedSet hs 1 hc).shred q) := by
  have h0 := carriedSet_consistent hs hc 0
  have h1 := carriedSet_consistent hs hc 1
  refine ⟨⟨carriedSet hs 0 hc, ?_, ?_⟩, carriedSet hs 1 hc, ?_, ?_⟩
  · rw [h0.fecSetIndex q]
    rfl
  · rw [h0.position q]
  · rw [h1.fecSetIndex q]
    rfl
  · rw [h1.position q]

/- A call with a shred of the first set or of the second. -/
def carriedInput (n : Fin 1024) (q : Position) : Shred × Option ReedSolomon :=
  ((carriedSet hs n hc).shred q, some (carriedRs slot content))

theorem carried_tracks (stats : Stats) {places : List (Fin 1024 × Position)} (hp : ∀ a ∈ places, a.1 = 0 ∨ a.1 = 1) :
    ∃ s out, SlotState.insertAll stats (places.map fun a => carriedInput hs hc a.1 a.2) = .ok (s, out) ∧
      Tracks (carriedBlock hs hc) true (arrivedIn (places.map fun a => carriedInput hs hc a.1 a.2)) s.1 ∧
      ∀ seg, seg ∈ out ↔ s.1.Run seg.shreds.1 seg.shreds.2 ∧
        seg = (carriedBlock hs hc).segment seg.shreds.1 seg.shreds.2 := by
  refine insertAll_tracks (carriedBlock_consistent hs hc).sets stats _ ?_ ?_ ?_
  · intro i hi
    obtain ⟨⟨n, q⟩, ha, rfl⟩ := List.mem_map.mp hi
    obtain ⟨h0, h1⟩ := carriedBlock_sends hs hc q
    obtain rfl | rfl := hp _ ha
    · exact h0
    · exact h1
  · intro i hi r hr
    obtain ⟨a, _, rfl⟩ := List.mem_map.mp hi
    exact ⟨rfl, Option.some.inj hr ▸ carriedRs_rebuilds slot content⟩
  · intro i hi _
    obtain ⟨a, _, rfl⟩ := List.mem_map.mp hi
    exact Option.some_ne_none _

omit [Hasher] in
/- What arrived are the shreds at these places of the numbered sets. -/
def ArrivedAt (places : List (Fin 1024 × Position)) (A : ℕ → Finset Position) : Prop :=
  ∀ (n : Fin 1024) (q : Position), q ∈ A (32 * n) ↔ (n, q) ∈ places

theorem arrivedAt_arrivedIn (places : List (Fin 1024 × Position)) :
    ArrivedAt places (arrivedIn (places.map fun a => carriedInput hs hc a.1 a.2)) := by
  intro n q
  rw [mem_arrivedIn]
  constructor
  · rintro ⟨i, hi, hset, hpos⟩
    obtain ⟨⟨m, r⟩, ha, rfl⟩ := List.mem_map.mp hi
    have hC := carriedSet_consistent hs hc m
    obtain rfl : m = n := by
      have heq : 32 * (m : ℕ) = 32 * n := (hC.fecSetIndex r).symm.trans hset
      exact Fin.ext (by omega)
    obtain rfl : r = q := (hC.position r).symm.trans hpos
    exact ha
  · intro ha
    have hC := carriedSet_consistent hs hc n
    exact ⟨_, List.mem_map_of_mem ha, hC.fecSetIndex q, hC.position q⟩

theorem carriedBlock_closes {i : ℕ} (hi : i < 64) : (carriedBlock hs hc).Closes i := by
  have hset : i - i % 32 = 0 ∨ i - i % 32 = 32 := by omega
  rw [Block.Closes, Block.shredAt]
  rcases hset with h | h
  · rw [h]
    exact carriedSet_dataComplete hs hc 0 (Block.place i)
  · rw [h]
    exact carriedSet_dataComplete hs hc 1 (Block.place i)

theorem carried_available_iff {recover : Bool} {A : ℕ → Finset Position} (i : ℕ) :
    (carriedBlock hs hc).Available recover A i ↔ i < 32 ∧ Present recover (A 0) (Block.place i) ∨
      32 ≤ i ∧ i < 64 ∧ Present recover (A 32) (Block.place i) := by
  rw [Block.Available]
  rcases Nat.lt_or_ge i 32 with hi | hi
  · have hset : i - i % 32 = 0 := by omega
    rw [hset]
    exact ⟨fun h => .inl ⟨hi, h.2⟩, fun h => ⟨rfl, h.elim And.right fun h => absurd hi (Nat.not_lt_of_le h.1)⟩⟩
  · rcases Nat.lt_or_ge i 64 with h64 | h64
    · have hset : i - i % 32 = 32 := by omega
      rw [hset]
      exact ⟨fun h => .inr ⟨hi, h64, h.2⟩, fun h => ⟨rfl, h.elim (fun h => absurd h.1 (Nat.not_lt_of_le hi)) fun h => h.2.2⟩⟩
    · refine iff_of_false (fun h => ?_) (by omega)
      have hsome := h.1
      rw [carriedBlock, if_neg (by omega), if_neg (by omega)] at hsome
      contradiction

theorem carriedSet_data (n : Fin 1024) (p : Fin 32) : ((carriedSet hs n hc).data p).data = content := by
  have hdata := DataPacket.shred_data _ (SetDraft.dataPacket_valid
    ((Counting.carrying_valid hs n hc).draft (Nat.two_pow_pos 16)) p
    (((Counting.carrying slot n content).draft 0).proof_length (.data p)))
  refine hdata.trans ?_
  show ((content ++ List.replicate (963 - content.length) 0) ++ _ ++ _).take (88 + content.length - 88) = content
  rw [List.append_assoc, List.append_assoc, Nat.add_sub_cancel_left]
  exact List.take_left' rfl

theorem carriedBlock_segment {i : ℕ} (hi : i < 64) : (carriedBlock hs hc).segment i i = ⟨(i, i), content, false⟩ := by
  have hshred : ∃ n, (carriedBlock hs hc).shredAt i = some ((carriedSet hs n hc).data (Block.place i)) := by
    have hset : i - i % 32 = 0 ∨ i - i % 32 = 32 := by omega
    rw [Block.shredAt]
    rcases hset with h | h
    · exact ⟨0, by rw [h]; rfl⟩
    · exact ⟨1, by rw [h]; rfl⟩
  obtain ⟨n, hn⟩ := hshred
  have hlast : ((carriedSet hs n hc).data (Block.place i)).lastInSlot = false := by
    rw [carriedSet, SetDraft.sealedSet_lastInSlot]
    show decide (flagDataComplete &&& flagLastInSlot = flagLastInSlot) = false
    decide
  simp only [Block.segment, Nat.sub_self, Nat.zero_add, List.range'_one, List.flatMap_singleton, hn, Option.elim_some,
    Option.any_some, hlast, carriedSet_data]

/-- Every shred that is there was emitted as a run of its own. -/
theorem carried_delivered_iff {recover : Bool} {A : ℕ → Finset Position} {s e : ℕ} :
    (carriedBlock hs hc).Delivered recover A s e ↔ s = e ∧ (carriedBlock hs hc).Available recover A s ∧
      (s = 0 ∨ (carriedBlock hs hc).Available recover A (s - 1)) := by
  refine Block.delivered_iff_of_closes fun i hi => carriedBlock_closes hs hc ?_
  rw [carried_available_iff] at hi
  omega

omit [Hasher] in
/- Some code shreds of the first set. -/
def firstCodes (ps : List (Fin 32)) : List (Fin 1024 × Position) := ps.map fun p => (0, .code p)

omit [Hasher] in
theorem firstCodes_sets (ps : List (Fin 32)) : ∀ a ∈ firstCodes ps, a.1 = 0 ∨ a.1 = 1 := by
  intro a ha
  obtain ⟨p, _, rfl⟩ := List.mem_map.mp ha
  exact .inl rfl

omit [Hasher] in
theorem mem_firstCodes {ps : List (Fin 32)} {n : Fin 1024} {q : Position} :
    (n, q) ∈ firstCodes ps ↔ n = 0 ∧ ∃ p ∈ ps, q = .code p := by
  rw [firstCodes, List.mem_map]
  constructor
  · rintro ⟨p, hp, heq⟩
    obtain ⟨rfl, rfl⟩ := Prod.mk.inj heq
    exact ⟨rfl, p, hp, rfl⟩
  · rintro ⟨rfl, p, hp, rfl⟩
    exact ⟨p, hp, rfl⟩

omit [Hasher] in
theorem ArrivedAt.codes {ps : List (Fin 32)} {A : ℕ → Finset Position} (hA : ArrivedAt (firstCodes ps) A) :
    A 0 = ps.toFinset.image .code ∧ (A 0).card = ps.toFinset.card := by
  have hzero : A 0 = ps.toFinset.image .code := by
    ext q
    refine (hA 0 q).trans (mem_firstCodes.trans ?_)
    simp only [true_and, Finset.mem_image, List.mem_toFinset, eq_comm]
  exact ⟨hzero, by rw [hzero, Finset.card_image_of_injective _ fun p q h => Position.code.inj h]⟩

/-- With all its code shreds the first set can be recovered, with fewer nothing can be done. -/
theorem firstCodes_available {ps : List (Fin 32)} {A : ℕ → Finset Position} (hA : ArrivedAt (firstCodes ps) A) (i : ℕ) :
    (carriedBlock hs hc).Available true A i ↔ i < 32 ∧ ps.toFinset.card = 32 := by
  obtain ⟨hzero, hcard⟩ := hA.codes
  have hone : A 32 = ∅ := by
    ext q
    refine (hA 1 q).trans (mem_firstCodes.trans ?_)
    simp
  have hle : ps.toFinset.card ≤ 32 := (Finset.card_le_univ ps.toFinset).trans_eq (Fintype.card_fin 32)
  have hdata : Position.data (Block.place i) ∉ A 0 := by
    rw [hzero, Finset.mem_image]
    exact fun ⟨p, _, heq⟩ => by contradiction
  rw [carried_available_iff, hone]
  simp only [Present, hcard, hdata, false_or, true_and, Finset.notMem_empty, Finset.card_empty]
  omega

omit [Hasher] in
/- Some data shreds of the first set. -/
def firstDatas (ps : List (Fin 32)) : List (Fin 1024 × Position) := ps.map fun p => (0, .data p)

omit [Hasher] in
theorem mem_firstDatas {ps : List (Fin 32)} {n : Fin 1024} {q : Position} :
    (n, q) ∈ firstDatas ps ↔ n = 0 ∧ ∃ p ∈ ps, q = .data p := by
  rw [firstDatas, List.mem_map]
  constructor
  · rintro ⟨p, hp, heq⟩
    obtain ⟨rfl, rfl⟩ := Prod.mk.inj heq
    exact ⟨rfl, p, hp, rfl⟩
  · rintro ⟨rfl, p, hp, rfl⟩
    exact ⟨p, hp, rfl⟩

omit [Hasher] in
theorem ArrivedAt.datas {ps : List (Fin 32)} {A : ℕ → Finset Position} (hA : ArrivedAt (firstDatas ps) A) :
    A 0 = ps.toFinset.image .data ∧ (A 0).card = ps.toFinset.card := by
  have hzero : A 0 = ps.toFinset.image .data := by
    ext q
    refine (hA 0 q).trans (mem_firstDatas.trans ?_)
    simp only [true_and, Finset.mem_image, List.mem_toFinset, eq_comm]
  exact ⟨hzero, by rw [hzero, Finset.card_image_of_injective _ fun p q h => Position.data.inj h]⟩

/-- Data shreds on their own are just there. -/
theorem firstDatas_available {ps : List (Fin 32)} {A : ℕ → Finset Position} (hA : ArrivedAt (firstDatas ps) A) (i : ℕ) :
    (carriedBlock hs hc).Available true A i ↔ i < 32 ∧ Block.place i ∈ ps := by
  obtain ⟨hzero, hcard⟩ := hA.datas
  have hone : A 32 = ∅ := by
    ext q
    refine (hA 1 q).trans (mem_firstDatas.trans ?_)
    simp
  have hmem : Present true (A 0) (Block.place i) ↔ Block.place i ∈ ps := by
    rw [Present, hcard, hzero, Finset.mem_image]
    constructor
    · rintro (⟨p, hp, heq⟩ | ⟨_, hmany⟩)
      · exact Position.data.inj heq ▸ List.mem_toFinset.mp hp
      · -- 32 of them are all of them
        have hall : ps.toFinset = Finset.univ :=
          Finset.eq_univ_of_card _ (le_antisymm (Finset.card_le_univ _) ((Fintype.card_fin 32).trans_le hmany))
        exact List.mem_toFinset.mp (hall ▸ Finset.mem_univ _)
    · exact fun hp => .inl ⟨_, List.mem_toFinset.mpr hp, rfl⟩
  rw [carried_available_iff, hone, hmem]
  simp [Present]

/-- The last code shred of the first set brings out the whole set. -/
theorem firstCodes_emits (stats : Stats) (ps : List (Fin 32)) : ∃ s out,
    SlotState.insertAll stats ((firstCodes ps).map fun a => carriedInput hs hc a.1 a.2) = .ok (s, out) ∧
      ∀ seg, seg ∈ out ↔ ps.toFinset.card = 32 ∧ ∃ i < 32, seg = (carriedBlock hs hc).segment i i := by
  obtain ⟨s, out, hrun, htracks, hout⟩ := carried_tracks hs hc stats (firstCodes_sets ps)
  have hI := SlotState.insertAll_inv hrun
  refine ⟨s, out, hrun, fun seg => ?_⟩
  have havail := firstCodes_available hs hc (arrivedAt_arrivedIn hs hc (firstCodes ps))
  rw [hout, htracks.run_iff hI.toAssembling, carried_delivered_iff, havail, havail]
  constructor
  · rintro ⟨⟨hse, ⟨hlt, hcard⟩, _⟩, heq⟩
    rw [← hse] at heq
    exact ⟨hcard, _, hlt, heq⟩
  · rintro ⟨hcard, i, hi, rfl⟩
    exact ⟨⟨rfl, ⟨hi, hcard⟩, .inr ⟨Nat.lt_of_le_of_lt (Nat.sub_le i 1) hi, hcard⟩⟩, rfl⟩

omit [Hasher] in
/- The code shreds of the first set, then a data shred of the second. -/
def secondPlaces (p : Fin 32) : List (Fin 1024 × Position) := firstCodes (List.finRange 32) ++ [(1, .data p)]

omit [Hasher] in
theorem secondPlaces_sets (p : Fin 32) : ∀ a ∈ secondPlaces p, a.1 = 0 ∨ a.1 = 1 := by
  intro a ha
  rcases List.mem_append.mp ha with ha | ha
  · exact firstCodes_sets _ a ha
  · rw [List.mem_singleton.mp ha]
    exact .inr rfl

omit [Hasher] in
theorem all_codes_card {A : Finset Position} (h : ∀ p : Fin 32, .code p ∈ A) : 32 ≤ A.card := by
  have hsub : Finset.univ.image Position.code ⊆ A := by
    intro q hq
    obtain ⟨p, _, rfl⟩ := Finset.mem_image.mp hq
    exact h p
  have hcard := Finset.card_le_card hsub
  rwa [Finset.card_image_of_injective _ fun p q h => Position.code.inj h, Finset.card_univ, Fintype.card_fin] at hcard

omit [Hasher] in
theorem ArrivedAt.second {p : Fin 32} {A : ℕ → Finset Position} (hA : ArrivedAt (secondPlaces p) A) : A 32 = {.data p} := by
  ext q
  refine (hA 1 q).trans ?_
  rw [secondPlaces, List.mem_append, mem_firstCodes]
  simp

/-- The first set can be recovered, of the second the one data shred is there. -/
theorem secondPlaces_available {p : Fin 32} {A : ℕ → Finset Position} (hA : ArrivedAt (secondPlaces p) A) (i : ℕ) :
    (carriedBlock hs hc).Available true A i ↔ i < 32 ∨ i = 32 + p := by
  have hfull : 32 ≤ (A 0).card := all_codes_card fun p =>
    (hA 0 (.code p)).mpr (List.mem_append_left _ (mem_firstCodes.mpr ⟨rfl, p, List.mem_finRange p, rfl⟩))
  have hplace : Block.place i = p ↔ i % 32 = p := Fin.ext_iff
  have hp := p.isLt
  rw [carried_available_iff, hA.second]
  simp only [Present, hfull, Finset.mem_singleton, Finset.card_singleton, Position.data.injEq, hplace, and_true, or_true]
  omega

omit [Hasher] in
def carriedPlaces : List (Fin 1024 × Position) := secondPlaces 0

omit [Hasher] in
theorem carriedPlaces_sets : ∀ a ∈ carriedPlaces, a.1 = 0 ∨ a.1 = 1 := secondPlaces_sets 0

theorem carriedPlaces_available {A : ℕ → Finset Position} (hA : ArrivedAt carriedPlaces A) (i : ℕ) :
    (carriedBlock hs hc).Available true A i ↔ i < 33 := by
  rw [secondPlaces_available hs hc hA]
  show i < 32 ∨ i = 32 + 0 ↔ i < 33
  omega

/-- Where the first `n` shreds are there, these are the runs that can be delivered. -/
theorem carried_delivered_first {recover : Bool} {A : ℕ → Finset Position} {n : ℕ}
    (h : ∀ i, (carriedBlock hs hc).Available recover A i ↔ i < n) (s e : ℕ) :
    (carriedBlock hs hc).Delivered recover A s e ↔ s = e ∧ s < n := by
  rw [carried_delivered_iff, h, h]
  omega

/-- The set that is recovered and the shred behind it come out as 33 runs. -/
theorem carriedPlaces_emits (stats : Stats) : ∃ s out,
    SlotState.insertAll stats (carriedPlaces.map fun a => carriedInput hs hc a.1 a.2) = .ok (s, out) ∧
      s.1.received.ones = Finset.range 33 ∧
      ∀ seg, seg ∈ out ↔ ∃ i < 33, seg = (carriedBlock hs hc).segment i i := by
  obtain ⟨s, out, hrun, htracks, hout⟩ := carried_tracks hs hc stats carriedPlaces_sets
  have hI := SlotState.insertAll_inv hrun
  have hA := arrivedAt_arrivedIn hs hc carriedPlaces
  refine ⟨s, out, hrun, ?_, fun seg => ?_⟩
  · ext i
    rw [htracks.received, carriedPlaces_available hs hc hA, Finset.mem_range]
  · rw [hout, htracks.run_iff hI.toAssembling, carried_delivered_first hs hc (carriedPlaces_available hs hc hA)]
    constructor
    · rintro ⟨⟨hse, hlt⟩, heq⟩
      rw [← hse] at heq
      exact ⟨_, hlt, heq⟩
    · rintro ⟨i, hi, rfl⟩
      exact ⟨⟨rfl, hi⟩, rfl⟩

theorem carriedPlaces_indexes :
    SlotState.IndexesInRange (carriedPlaces.map fun a => carriedInput hs hc a.1 a.2) := by
  intro i hi
  obtain ⟨a, _, rfl⟩ := List.mem_map.mp hi
  have hC := carriedSet_consistent hs hc a.1
  exact le_of_eq_of_le (hC.fecSetIndex a.2) hC.inRange

end
end Deshred
