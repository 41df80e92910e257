import Deshred.Shortvec

/-!
# Transactions on the wire

The wire layout of the module header, as data. `readTransaction` reads it field by field
and keeps the fields.
-/

namespace Deshred
open Scanner View

/-! ### Legacy and v0 -/

structure Instruction where
  programIdIndex : UInt8
  accounts : ShortVec UInt8
  data : ShortVec UInt8

structure Lookup where
  table : Bytes
  writable : ShortVec UInt8
  readonly : ShortVec UInt8

/-- A v0 transaction has lookups, a legacy one has none. -/
structure LegacyTx where
  signatures : ShortVec Bytes
  header : Bytes
  keys : ShortVec Bytes
  blockhash : Bytes
  instructions : ShortVec Instruction
  lookups : Option (ShortVec Lookup)

abbrev encodeBytes : ShortVec UInt8 → Bytes := ShortVec.encode fun b => b

namespace Instruction

def encode (ix : Instruction) : Bytes := ix.programIdIndex :: (encodeBytes ix.accounts ++ encodeBytes ix.data)

structure Valid (ix : Instruction) : Prop where
  accounts : ix.accounts.Valid fun _ => True
  data : ix.data.Valid fun _ => True

end Instruction

namespace Lookup

def encode (l : Lookup) : Bytes := l.table ++ (encodeBytes l.writable ++ encodeBytes l.readonly)

structure Valid (l : Lookup) : Prop where
  table : l.table.length = 32
  writable : l.writable.Valid fun _ => True
  readonly : l.readonly.Valid fun _ => True

end Lookup

def readInstruction : Scan Instruction := do
  let programIdIndex ← u8
  let accounts ← readShortVec take
  let data ← readShortVec take
  pure ⟨programIdIndex, accounts, data⟩

def readLookup : Scan Lookup := do
  let table ← take 32
  let writable ← readShortVec take
  let readonly ← readShortVec take
  pure ⟨table, writable, readonly⟩

theorem codec_instruction : Codec readInstruction Instruction.encode Instruction.Valid := by
  refine CodecOn.step (fun ix => ix.programIdIndex) (fun ix => encodeBytes ix.accounts ++ encodeBytes ix.data) codec_u8
    (fun _ _ => trivial) (fun _ _ => rfl) fun programIdIndex _ => ?_
  refine CodecOn.step (fun ix => ix.accounts) (fun ix => encodeBytes ix.data) codec_bytes (fun ix h => h.1.accounts)
    (fun _ _ => rfl) fun accounts haccounts => ?_
  refine CodecOn.step (fun ix => ix.data) (fun _ => []) codec_bytes (fun ix h => h.1.1.data)
    (fun _ _ => (List.append_nil _).symm) fun data hdata => ?_
  apply Codec.pure rfl
  intro ix
  constructor
  · rintro ⟨⟨⟨_, rfl⟩, rfl⟩, rfl⟩
    rfl
  · rintro rfl
    exact ⟨⟨⟨⟨haccounts, hdata⟩, rfl⟩, rfl⟩, rfl⟩

theorem codec_lookup : Codec readLookup Lookup.encode Lookup.Valid := by
  refine CodecOn.step (fun l => l.table) (fun l => encodeBytes l.writable ++ encodeBytes l.readonly)
    (Codec.take _ 32) (fun l h => h.table) (fun _ _ => rfl) fun table htable => ?_
  refine CodecOn.step (fun l => l.writable) (fun l => encodeBytes l.readonly) codec_bytes (fun l h => h.1.writable)
    (fun _ _ => rfl) fun writable hwritable => ?_
  refine CodecOn.step (fun l => l.readonly) (fun _ => []) codec_bytes (fun l h => h.1.1.readonly)
    (fun _ _ => (List.append_nil _).symm) fun readonly hreadonly => ?_
  apply Codec.pure rfl
  intro l
  constructor
  · rintro ⟨⟨⟨_, rfl⟩, rfl⟩, rfl⟩
    rfl
  · rintro rfl
    exact ⟨⟨⟨⟨htable, hwritable, hreadonly⟩, rfl⟩, rfl⟩, rfl⟩

namespace LegacyTx

def encodeLookups (tx : LegacyTx) : Bytes :=
  match tx.lookups with
  | none => []
  | some lookups => lookups.encode (·.flatMap Lookup.encode)

def encodeInstructions (tx : LegacyTx) : Bytes := tx.instructions.encode (·.flatMap Instruction.encode)

/- From the header on. -/
def encodeMessage (tx : LegacyTx) : Bytes :=
  tx.header ++ (tx.keys.encode List.flatten ++ (tx.blockhash ++ (tx.encodeInstructions ++ tx.encodeLookups)))

def versionByte (tx : LegacyTx) : Bytes := if tx.lookups.isSome then [0x80] else []

def encode (tx : LegacyTx) : Bytes := tx.signatures.encode List.flatten ++ (tx.versionByte ++ tx.encodeMessage)

structure ValidMessage (tx : LegacyTx) : Prop where
  header : tx.header.length = 3
  keys : tx.keys.Valid fun ss => ∀ s ∈ ss, s.length = 32
  blockhash : tx.blockhash.length = 32
  instructions : tx.instructions.Valid fun ixs => ∀ ix ∈ ixs, ix.Valid
  lookups : ∀ lookups, tx.lookups = some lookups → lookups.Valid fun ls => ∀ l ∈ ls, l.Valid

/-- Without a version byte, the first byte of the header is told from one. -/
structure Valid (tx : LegacyTx) : Prop where
  signatures : tx.signatures.Valid fun ss => ∀ s ∈ ss, s.length = 64
  message : tx.ValidMessage
  version : tx.lookups = none → u8At tx.header 0 &&& 0x80 = 0

end LegacyTx

def readMessage (signatures : ShortVec Bytes) (v0 : Bool) : Scan LegacyTx := do
  let header ← take 3
  let keys ← readShortVec (chunks 32)
  let blockhash ← take 32
  let instructions ← readShortVec (collect readInstruction)
  if v0 then do
    let lookups ← readShortVec (collect readLookup)
    pure ⟨signatures, header, keys, blockhash, instructions, some lookups⟩
  else pure ⟨signatures, header, keys, blockhash, instructions, none⟩

theorem codec_message (signatures : ShortVec Bytes) (v0 : Bool) :
    Codec (readMessage signatures v0) LegacyTx.encodeMessage fun tx =>
      tx.ValidMessage ∧ tx.signatures = signatures ∧ tx.lookups.isSome = v0 := by
  refine CodecOn.step (fun tx => tx.header)
    (fun tx => tx.keys.encode List.flatten ++ (tx.blockhash ++ (tx.encodeInstructions ++ tx.encodeLookups)))
    (Codec.take _ 3) (fun tx h => h.1.header) (fun _ _ => rfl) fun header hheader => ?_
  refine CodecOn.step (fun tx => tx.keys) (fun tx => tx.blockhash ++ (tx.encodeInstructions ++ tx.encodeLookups))
    (codec_chunkVec 32) (fun tx h => h.1.1.keys) (fun _ _ => rfl) fun keys hkeys => ?_
  refine CodecOn.step (fun tx => tx.blockhash) (fun tx => tx.encodeInstructions ++ tx.encodeLookups)
    (Codec.take _ 32) (fun tx h => h.1.1.1.blockhash) (fun _ _ => rfl) fun blockhash hblockhash => ?_
  refine CodecOn.step (fun tx => tx.instructions) (fun tx => tx.encodeLookups) (codec_itemVec codec_instruction)
    (fun tx h => h.1.1.1.1.instructions) (fun _ _ => rfl) fun instructions hinstructions => ?_
  cases v0 with
  | false =>
    apply Codec.pure rfl
    intro tx
    constructor
    · rintro ⟨⟨⟨⟨⟨_, rfl, hnone⟩, rfl⟩, rfl⟩, rfl⟩, rfl⟩
      rw [Option.isSome_eq_false_iff, Option.isNone_iff_eq_none] at hnone
      rw [← hnone]
    · rintro rfl
      exact ⟨⟨⟨⟨⟨⟨hheader, hkeys, hblockhash, hinstructions, nofun⟩, rfl, rfl⟩, rfl⟩, rfl⟩, rfl⟩, rfl⟩
  | true =>
    refine CodecOn.step (fun tx => tx.lookups.getD ⟨[], []⟩) (fun _ => []) (codec_itemVec codec_lookup) ?_ ?_
      fun lookups hlookups => ?_
    · intro tx ⟨⟨⟨⟨⟨hvalid, _, hsome⟩, _⟩, _⟩, _⟩, _⟩
      obtain ⟨lookups, hl⟩ := Option.isSome_iff_exists.mp hsome
      rw [hl, Option.getD_some]
      exact hvalid.lookups lookups hl
    · intro tx ⟨⟨⟨⟨⟨_, _, hsome⟩, _⟩, _⟩, _⟩, _⟩
      obtain ⟨lookups, hl⟩ := Option.isSome_iff_exists.mp hsome
      rw [LegacyTx.encodeLookups, hl, Option.getD_some, List.append_nil]
    · apply Codec.pure rfl
      intro tx
      constructor
      · rintro ⟨⟨⟨⟨⟨⟨_, rfl, hsome⟩, rfl⟩, rfl⟩, rfl⟩, rfl⟩, rfl⟩
        obtain ⟨lookups, hl⟩ := Option.isSome_iff_exists.mp hsome
        rw [hl, Option.getD_some, ← hl]
      · rintro rfl
        refine ⟨⟨⟨⟨⟨⟨⟨hheader, hkeys, hblockhash, hinstructions, ?_⟩, rfl, rfl⟩, rfl⟩, rfl⟩, rfl⟩, rfl⟩, rfl⟩
        rintro _ ⟨⟩
        exact hlookups

def readLegacyOrV0 : Scan LegacyTx := do
  let signatures ← readShortVec (chunks 64)
  let messageFirst ← peek
  if messageFirst &&& 0x80 = 0 then readMessage signatures false
  else if messageFirst = 0x80 then do
    let _ ← u8
    readMessage signatures true
  else fail (.unknownVersion messageFirst)

theorem codec_u8_known (b : UInt8) : CodecOn (fun rest => rest.head? = some b) u8 (fun b => [b]) (· = b) where
  reads a _ := codec_u8.reads a trivial
  exact before rest a c' hb h := by
    obtain ⟨_, after, rfl, hc⟩ := codec_u8.exact before rest a c' trivial h
    rw [List.singleton_append, List.head?_cons, Option.some.injEq] at hb
    exact ⟨hb, after, rfl, hc⟩

theorem head?_of_length_pos {b : Bytes} (h : 0 < b.length) (rest : Bytes) : (b ++ rest).head? = some (u8At b 0) := by
  obtain ⟨x, t, rfl⟩ := List.exists_cons_of_length_pos h
  rfl

/- What follows the signatures, and what its first byte says about the version. -/
theorem codec_legacyOrV0 : Codec readLegacyOrV0 LegacyTx.encode LegacyTx.Valid := by
  refine CodecOn.step (fun tx => tx.signatures) (fun tx => tx.versionByte ++ tx.encodeMessage) (codec_chunkVec 64)
    (fun tx h => h.signatures) (fun _ _ => rfl) fun signatures hsignatures => ?_
  have hhead : ∀ tx : LegacyTx, tx.ValidMessage → tx.lookups.isSome = false →
      (tx.versionByte ++ tx.encodeMessage).head? = some (u8At tx.header 0) := by
    intro tx htx hnone
    rw [LegacyTx.versionByte, hnone, if_neg (by simp), List.nil_append]
    exact head?_of_length_pos (by rw [htx.header]; decide) _
  refine Codec.peek _ (fun b tx => (tx.ValidMessage ∧ tx.signatures = signatures ∧
    tx.lookups.isSome = decide (b &&& 0x80 ≠ 0)) ∧ (b &&& 0x80 = 0 ∨ b = 0x80)) ?_ ?_ ?_ fun b => ?_
  · intro tx ⟨htx, hsig⟩
    cases hl : tx.lookups.isSome with
    | false =>
      have hlow := htx.version (Option.isNone_iff_eq_none.mp (by simpa using hl))
      exact ⟨_, hhead tx htx.message hl, ⟨htx.message, hsig, by simp [hlow]⟩, .inl hlow⟩
    | true =>
      refine ⟨0x80, ?_, ⟨htx.message, hsig, by decide⟩, .inr rfl⟩
      rw [LegacyTx.versionByte, hl, if_pos rfl]
      rfl
  · intro b tx ⟨⟨htx, hsig, hl⟩, _⟩ hb
    refine ⟨⟨hsig ▸ hsignatures, htx, fun hnone => ?_⟩, hsig⟩
    rw [hnone] at hl
    have hlow : b &&& 0x80 = 0 := by simpa using hl
    rw [hhead tx htx (by rw [hnone]; rfl), Option.some.injEq] at hb
    rw [hb]
    exact hlow
  · intro b tx ⟨⟨htx, _⟩, _⟩ hnil
    have hlen := congrArg List.length hnil
    simp only [LegacyTx.encodeMessage, List.length_append, htx.header, List.length_nil] at hlen
    omega
  · split
    · rename_i hlow
      refine Codec.on ((codec_message signatures false).congr (fun tx => ?_) fun tx htx => ?_)
      · simp [hlow]
      · rw [LegacyTx.versionByte, htx.2.2]
        rfl
    · rename_i hhigh
      split
      · rename_i hb
        refine CodecOn.step (fun _ => b) LegacyTx.encodeMessage (codec_u8_known b) (fun _ _ => rfl) ?_ fun _ h => ?_
        · intro tx ⟨⟨_, _, hl⟩, _⟩
          rw [LegacyTx.versionByte, hl, if_pos (by simpa using hhigh), hb]
        · refine (codec_message signatures true).congr (fun tx => ?_) fun _ _ => rfl
          simp [hb, h]
      · rename_i hb
        exact Codec.on (Codec.fail _ (by simp [hhigh, hb]))

/-! ### v1 -/

structure V1Instruction where
  programIdIndex : UInt8
  accounts : Bytes
  data : Bytes

namespace V1Instruction

def header (ix : V1Instruction) : Bytes :=
  [ix.programIdIndex, UInt8.ofNat ix.accounts.length] ++ leBytes 2 ix.data.length

def payload (ix : V1Instruction) : Bytes := ix.accounts ++ ix.data

structure Valid (ix : V1Instruction) : Prop where
  accounts : ix.accounts.length < 256
  data : ix.data.length < 65536

def ofParts (header payload : Bytes) : V1Instruction :=
  ⟨u8At header 0, payload.take (u8At header 1).toNat, payload.drop (u8At header 1).toNat⟩

theorem header_accounts {ix : V1Instruction} (h : ix.Valid) : (u8At ix.header 1).toNat = ix.accounts.length := by
  show (UInt8.ofNat ix.accounts.length).toNat = _
  rw [UInt8.toNat_ofNat']
  exact Nat.mod_eq_of_lt h.accounts

theorem payloadLen_header {ix : V1Instruction} (h : ix.Valid) : payloadLen ix.header = ix.payload.length := by
  have h16 : u16At ix.header 2 = ix.data.length := leVal_leBytes 2 _ h.data
  rw [payloadLen, header_accounts h, h16, payload, List.length_append]

theorem ofParts_parts {ix : V1Instruction} (h : ix.Valid) : ofParts ix.header ix.payload = ix := by
  rw [ofParts, header_accounts h, payload, List.take_left, List.drop_left]
  rfl

theorem parts_ofParts {header payload : Bytes} (hh : header.length = 4) (hp : payload.length = payloadLen header) :
    (ofParts header payload).Valid ∧ (ofParts header payload).header = header ∧
      (ofParts header payload).payload = payload := by
  obtain ⟨a, b, x, y, rfl⟩ : ∃ a b x y, header = [a, b, x, y] := by
    match header, hh with
    | [a, b, x, y], _ => exact ⟨a, b, x, y, rfl⟩
  have hval : payload.length = b.toNat + leVal [x, y] := hp
  have hb := b.toNat_lt
  have hlt : leVal [x, y] < 256 ^ 2 := leVal_lt [x, y]
  have hacc : (payload.take b.toNat).length = b.toNat := by
    rw [List.length_take]
    omega
  have hdata : (payload.drop b.toNat).length = leVal [x, y] := by
    rw [List.length_drop]
    omega
  refine ⟨⟨hacc.trans_lt hb, hdata.trans_lt hlt⟩, ?_, List.take_append_drop _ _⟩
  show [a, UInt8.ofNat (payload.take b.toNat).length] ++ leBytes 2 (payload.drop b.toNat).length = [a, b, x, y]
  have hxy : leBytes 2 (leVal [x, y]) = [x, y] := leBytes_leVal [x, y]
  rw [hacc, hdata, UInt8.ofNat_toNat, hxy]
  rfl

theorem zipWith_parts {ixs : List V1Instruction} (h : ∀ ix ∈ ixs, ix.Valid) :
    List.zipWith ofParts (ixs.map header) (ixs.map payload) = ixs := by
  induction ixs with
  | nil => rfl
  | cons ix ixs ih =>
    have hix := h ix List.mem_cons_self
    rw [List.map_cons, List.map_cons, List.zipWith_cons_cons, ofParts_parts hix,
      ih fun x hx => h x (List.mem_cons_of_mem _ hx)]

/-- All of them at once: the payloads are cut where the headers say. -/
theorem parts_zipWith {headers payloads : List Bytes} (hh : ∀ s ∈ headers, s.length = 4)
    (hp : payloads.map List.length = headers.map payloadLen) :
    (∀ ix ∈ List.zipWith ofParts headers payloads, ix.Valid) ∧
      (List.zipWith ofParts headers payloads).map header = headers ∧
      (List.zipWith ofParts headers payloads).map payload = payloads := by
  induction headers generalizing payloads with
  | nil =>
    obtain rfl : payloads = [] := List.map_eq_nil_iff.mp hp
    exact ⟨nofun, rfl, rfl⟩
  | cons s headers ih =>
    cases payloads with
    | nil => contradiction
    | cons p payloads =>
      rw [List.map_cons, List.map_cons, List.cons.injEq] at hp
      obtain ⟨hvalid, hs, hpay⟩ := parts_ofParts (hh s List.mem_cons_self) hp.1
      obtain ⟨hall, hheaders, hpayloads⟩ := ih (fun t ht => hh t (List.mem_cons_of_mem _ ht)) hp.2
      rw [List.zipWith_cons_cons, List.map_cons, List.map_cons, hs, hpay, hheaders, hpayloads]
      refine ⟨fun ix hix => ?_, rfl, rfl⟩
      rcases List.mem_cons.mp hix with rfl | hix
      · exact hvalid
      · exact hall ix hix

end V1Instruction

/- `n` bytes that are there or left out. -/
abbrev Field (n : ℕ) := Option {b : Bytes // b.length = n}

namespace Field
variable {n : ℕ}

def encode (v : Field n) : Bytes := v.elim [] Subtype.val

def ofBytes (present : Bool) (b : Bytes) : Field n :=
  if h : present = true ∧ b.length = n then some ⟨b, h.2⟩ else none

theorem encode_length (v : Field n) : v.encode.length = if v.isSome then n else 0 := by
  cases v with
  | none => rfl
  | some b => exact b.property

theorem ofBytes_encode (v : Field n) : ofBytes v.isSome v.encode = v := by
  cases v with
  | none => rfl
  | some b => exact dif_pos ⟨rfl, b.property⟩

theorem encode_ofBytes {present : Bool} {b : Bytes} (h : b.length = if present then n else 0) :
    (ofBytes present b : Field n).isSome = present ∧ (ofBytes present b : Field n).encode = b := by
  cases present with
  | false => exact ⟨rfl, (List.eq_nil_of_length_eq_zero h).symm⟩
  | true =>
    rw [ofBytes, dif_pos ⟨rfl, h⟩]
    exact ⟨rfl, rfl⟩

end Field

/-- The config values. Each is there when the mask has its bit, the fee when it has both
of its bits. -/
structure V1Config where
  fee : Field 8
  word2 : Field 4
  word3 : Field 4
  word4 : Field 4

namespace V1Config

def maskOf (fee word2 word3 word4 : Bool) : UInt32 :=
  (if fee then 0b11 else 0) + (if word2 then 0b100 else 0) + (if word3 then 0b1000 else 0) +
    (if word4 then 0b10000 else 0)

/-- The mask that says which values there are. -/
def mask (c : V1Config) : UInt32 := maskOf c.fee.isSome c.word2.isSome c.word3.isSome c.word4.isSome

def values (c : V1Config) : List Bytes := [c.fee.encode, c.word2.encode, c.word3.encode, c.word4.encode]

def encode (c : V1Config) : Bytes := c.values.flatten

/-! What a mask says on its own -/

def hasBit (mask : UInt32) (bit : ℕ) : Bool := mask.toNat.testBit bit

/-- Five bits are defined, and the two of the fee go together. -/
def DefinedMask (mask : UInt32) : Prop := mask.toNat < 2 ^ 5 ∧ hasBit mask 0 = hasBit mask 1

instance (mask : UInt32) : Decidable (DefinedMask mask) := inferInstanceAs (Decidable (_ ∧ _))

def sizes (mask : UInt32) : List ℕ :=
  [if hasBit mask 0 then 8 else 0, if hasBit mask 2 then 4 else 0, if hasBit mask 3 then 4 else 0,
    if hasBit mask 4 then 4 else 0]

def ofValues (mask : UInt32) (values : List Bytes) : V1Config where
  fee := .ofBytes (hasBit mask 0) (values.getD 0 [])
  word2 := .ofBytes (hasBit mask 2) (values.getD 1 [])
  word3 := .ofBytes (hasBit mask 3) (values.getD 2 [])
  word4 := .ofBytes (hasBit mask 4) (values.getD 3 [])

theorem maskOf_bits : ∀ fee word2 word3 word4 : Bool, DefinedMask (maskOf fee word2 word3 word4) ∧
    hasBit (maskOf fee word2 word3 word4) 0 = fee ∧ hasBit (maskOf fee word2 word3 word4) 2 = word2 ∧
    hasBit (maskOf fee word2 word3 word4) 3 = word3 ∧ hasBit (maskOf fee word2 word3 word4) 4 = word4 := by
  decide

theorem maskOf_hasBit {mask : UInt32} (h : DefinedMask mask) :
    maskOf (hasBit mask 0) (hasBit mask 2) (hasBit mask 3) (hasBit mask 4) = mask := by
  have hall : ∀ k < 2 ^ 5, k.testBit 0 = k.testBit 1 →
      maskOf (k.testBit 0) (k.testBit 2) (k.testBit 3) (k.testBit 4) = UInt32.ofNat k := by decide
  have hmask := hall mask.toNat h.1 h.2
  rwa [UInt32.ofNat_toNat] at hmask

theorem values_length (c : V1Config) : c.values.map List.length = sizes c.mask := by
  obtain ⟨_, h0, h2, h3, h4⟩ := maskOf_bits c.fee.isSome c.word2.isSome c.word3.isSome c.word4.isSome
  simp only [values, List.map_cons, List.map_nil, Field.encode_length, sizes, mask, h0, h2, h3, h4]

theorem ofValues_values (c : V1Config) : ofValues c.mask c.values = c := by
  obtain ⟨_, h0, h2, h3, h4⟩ := maskOf_bits c.fee.isSome c.word2.isSome c.word3.isSome c.word4.isSome
  simp only [ofValues, mask, h0, h2, h3, h4, values, List.getD_cons_zero, List.getD_cons_succ, Field.ofBytes_encode]

theorem values_ofValues {mask : UInt32} (hmask : DefinedMask mask) {values : List Bytes}
    (h : values.map List.length = sizes mask) :
    (ofValues mask values).mask = mask ∧ (ofValues mask values).values = values := by
  obtain ⟨fee, word2, word3, word4, rfl⟩ : ∃ fee word2 word3 word4, values = [fee, word2, word3, word4] := by
    obtain ⟨fee, l, rfl, _, h⟩ := List.map_eq_cons_iff.mp h
    obtain ⟨word2, l, rfl, _, h⟩ := List.map_eq_cons_iff.mp h
    obtain ⟨word3, l, rfl, _, h⟩ := List.map_eq_cons_iff.mp h
    obtain ⟨word4, l, rfl, _, h⟩ := List.map_eq_cons_iff.mp h
    obtain rfl := List.map_eq_nil_iff.mp h
    exact ⟨fee, word2, word3, word4, rfl⟩
  simp only [sizes, List.map_cons, List.map_nil, List.cons.injEq, and_true] at h
  obtain ⟨hfee, h2, h3, h4⟩ := h
  obtain ⟨hfee, hfee'⟩ := Field.encode_ofBytes hfee
  obtain ⟨h2, h2'⟩ := Field.encode_ofBytes h2
  obtain ⟨h3, h3'⟩ := Field.encode_ofBytes h3
  obtain ⟨h4, h4'⟩ := Field.encode_ofBytes h4
  constructor
  · rw [V1Config.mask]
    simp only [ofValues, List.getD_cons_zero, List.getD_cons_succ, hfee, h2, h3, h4, maskOf_hasBit hmask]
  · simp only [ofValues, V1Config.values, List.getD_cons_zero, List.getD_cons_succ, hfee', h2', h3', h4']

/-- These are the masks that a config can have. -/
theorem definedMask_iff (mask : UInt32) : DefinedMask mask ↔ ∃ c : V1Config, c.mask = mask := by
  constructor
  · intro h
    have hlen : ((sizes mask).map fun n => List.replicate n (0 : UInt8)).map List.length = sizes mask := by
      rw [List.map_map]
      exact (List.map_congr_left fun n _ => List.length_replicate).trans (List.map_id _)
    exact ⟨_, (values_ofValues h hlen).1⟩
  · rintro ⟨c, rfl⟩
    exact (maskOf_bits _ _ _ _).1

end V1Config

def readConfig (mask : UInt32) : Scan V1Config := do
  let values ← (V1Config.sizes mask).splitLengths <$> take (V1Config.sizes mask).sum
  pure (V1Config.ofValues mask values)

theorem codec_config {mask : UInt32} (h : V1Config.DefinedMask mask) :
    Codec (readConfig mask) V1Config.encode fun c => c.mask = mask := by
  refine CodecOn.step (fun c => c.values) (fun _ => []) (Codec.split _ (V1Config.sizes mask)) ?_
    (fun _ _ => (List.append_nil _).symm) fun values hvalues => ?_
  · rintro c rfl
    exact c.values_length
  · obtain ⟨hmask, hback⟩ := V1Config.values_ofValues h hvalues
    apply Codec.pure rfl
    intro c
    constructor
    · rintro ⟨rfl, rfl⟩
      exact c.ofValues_values.symm
    · rintro rfl
      exact ⟨hmask, hback⟩

/-- The number of required signatures is that of the signatures at the tail. -/
structure V1Tx where
  readonlyCounts : Bytes
  blockhash : Bytes
  keys : List Bytes
  config : V1Config
  instructions : List V1Instruction
  signatures : List Bytes

namespace V1Tx

/- What stands before the signatures, from the number of instructions on. -/
def encodeBody (tx : V1Tx) : Bytes :=
  [UInt8.ofNat tx.instructions.length] ++ ([UInt8.ofNat tx.keys.length] ++ (tx.keys.flatten ++ (tx.config.encode ++
    ((tx.instructions.map V1Instruction.header).flatten ++ ((tx.instructions.map V1Instruction.payload).flatten ++
      tx.signatures.flatten)))))

def encode (tx : V1Tx) : Bytes :=
  [0x81] ++ ([UInt8.ofNat tx.signatures.length] ++ (tx.readonlyCounts ++ (leBytes 4 tx.config.mask.toNat ++
    (tx.blockhash ++ tx.encodeBody))))

structure Valid (tx : V1Tx) : Prop where
  readonlyCounts : tx.readonlyCounts.length = 2
  blockhash : tx.blockhash.length = 32
  keys : tx.keys.length < 256 ∧ ∀ s ∈ tx.keys, s.length = 32
  instructions : tx.instructions.length < 256 ∧ ∀ ix ∈ tx.instructions, ix.Valid
  signatures : tx.signatures.length < 256 ∧ ∀ s ∈ tx.signatures, s.length = 64

end V1Tx

def readV1 : Scan V1Tx := do
  let _ ← u8
  let numSignatures ← u8
  let readonlyCounts ← take 2
  let mask ← u32
  if V1Config.DefinedMask mask then do
    let blockhash ← take 32
    let numInstructions ← u8
    let numKeys ← u8
    let keys ← chunks 32 numKeys.toNat
    let config ← readConfig mask
    let headers ← chunks 4 numInstructions.toNat
    let payloads ← (headers.map payloadLen).splitLengths <$> take (headers.map payloadLen).sum
    let signatures ← chunks 64 numSignatures.toNat
    pure ⟨readonlyCounts, blockhash, keys, config, List.zipWith V1Instruction.ofParts headers payloads, signatures⟩
  else fail .badConfigMask

theorem toNat_ofNat_count {n : ℕ} {b : UInt8} (h : n < 256) (hb : UInt8.ofNat n = b) : n = b.toNat := by
  rw [← hb, UInt8.toNat_ofNat']
  exact (Nat.mod_eq_of_lt h).symm

theorem codec_v1 : CodecOn (fun rest => rest.head? = some 0x81) readV1 V1Tx.encode V1Tx.Valid := by
  refine CodecOn.step (fun _ => 0x81) _ (codec_u8_known 0x81) (fun _ _ => rfl) (fun _ _ => rfl)
    fun first hfirst => ?_
  refine CodecOn.step (fun tx => UInt8.ofNat tx.signatures.length) _ codec_u8 (fun _ _ => trivial) (fun _ _ => rfl)
    fun numSignatures _ => ?_
  refine CodecOn.step (fun tx => tx.readonlyCounts) _ (Codec.take _ 2) (fun _ h => h.1.1.readonlyCounts)
    (fun _ _ => rfl) fun readonlyCounts hreadonly => ?_
  refine CodecOn.step (fun tx => tx.config.mask) _ codec_u32 (fun _ _ => trivial) (fun _ _ => rfl) fun mask _ => ?_
  split
  · rename_i hmask
    refine CodecOn.step (fun tx => tx.blockhash) _ (Codec.take _ 32) (fun _ h => h.1.1.1.1.blockhash) (fun _ _ => rfl)
      fun blockhash hblockhash => ?_
    refine CodecOn.step (fun tx => UInt8.ofNat tx.instructions.length) _ codec_u8 (fun _ _ => trivial) (fun _ _ => rfl)
      fun numInstructions _ => ?_
    refine CodecOn.step (fun tx => UInt8.ofNat tx.keys.length) _ codec_u8 (fun _ _ => trivial) (fun _ _ => rfl)
      fun numKeys _ => ?_
    refine CodecOn.step (fun tx => tx.keys) _ (Codec.chunks _ 32 numKeys.toNat) ?_ (fun _ _ => rfl) fun keys hkeys => ?_
    · intro tx ⟨⟨⟨⟨⟨⟨⟨h, _⟩, _⟩, _⟩, _⟩, _⟩, _⟩, hk⟩
      exact ⟨toNat_ofNat_count h.keys.1 hk, h.keys.2⟩
    refine CodecOn.step (fun tx => tx.config) _ (codec_config hmask) ?_ (fun _ _ => rfl) fun config hconfig => ?_
    · intro tx ⟨⟨⟨⟨⟨_, hm⟩, _⟩, _⟩, _⟩, _⟩
      exact hm
    refine CodecOn.step (fun tx => tx.instructions.map V1Instruction.header) _ (Codec.chunks _ 4 numInstructions.toNat) ?_
      (fun _ _ => rfl) fun headers hheaders => ?_
    · intro tx ⟨⟨⟨⟨⟨⟨⟨⟨⟨h, _⟩, _⟩, _⟩, _⟩, _⟩, hix⟩, _⟩, _⟩, _⟩
      refine ⟨(List.length_map _).trans (toNat_ofNat_count h.instructions.1 hix), fun s hs => ?_⟩
      obtain ⟨ix, _, rfl⟩ := List.mem_map.mp hs
      rfl
    refine CodecOn.step (fun tx => tx.instructions.map V1Instruction.payload) _ (Codec.split _ (headers.map payloadLen)) ?_
      (fun _ _ => rfl) fun payloads hpayloads => ?_
    · rintro tx ⟨⟨⟨⟨⟨⟨⟨⟨⟨⟨h, _⟩, _⟩, _⟩, _⟩, _⟩, _⟩, _⟩, _⟩, _⟩, rfl⟩
      rw [List.map_map, List.map_map]
      exact List.map_congr_left fun ix hix => (V1Instruction.payloadLen_header (h.instructions.2 ix hix)).symm
    refine CodecOn.step (fun tx => tx.signatures) (fun _ => []) (Codec.chunks _ 64 numSignatures.toNat) ?_
      (fun _ _ => (List.append_nil _).symm) fun signatures hsignatures => ?_
    · intro tx ⟨⟨⟨⟨⟨⟨⟨⟨⟨⟨⟨h, _⟩, hsig⟩, _⟩, _⟩, _⟩, _⟩, _⟩, _⟩, _⟩, _⟩, _⟩
      exact ⟨toNat_ofNat_count h.signatures.1 hsig, h.signatures.2⟩
    obtain ⟨hvalid, hmapHeader, hmapPayload⟩ := V1Instruction.parts_zipWith hheaders.2 hpayloads
    apply Codec.pure rfl
    intro tx
    constructor
    · rintro ⟨⟨⟨⟨⟨⟨⟨⟨⟨⟨⟨⟨h, _⟩, _⟩, rfl⟩, _⟩, rfl⟩, _⟩, _⟩, rfl⟩, rfl⟩, rfl⟩, rfl⟩, rfl⟩
      rw [V1Instruction.zipWith_parts h.instructions.2]
    · rintro rfl
      have hcount : (List.zipWith V1Instruction.ofParts headers payloads).length = numInstructions.toNat := by
        rw [← hheaders.1, ← List.length_map V1Instruction.header, hmapHeader]
      have hvalidTx : V1Tx.Valid ⟨readonlyCounts, blockhash, keys, config,
          List.zipWith V1Instruction.ofParts headers payloads, signatures⟩ :=
        ⟨hreadonly, hblockhash, ⟨hkeys.1.trans_lt numKeys.toNat_lt, hkeys.2⟩,
          ⟨hcount.trans_lt numInstructions.toNat_lt, hvalid⟩, hsignatures.1.trans_lt numSignatures.toNat_lt, hsignatures.2⟩
      refine ⟨⟨⟨⟨⟨⟨⟨⟨⟨⟨⟨⟨hvalidTx, hfirst.symm⟩, ?_⟩, rfl⟩, hconfig⟩, rfl⟩, ?_⟩, ?_⟩, rfl⟩, rfl⟩, hmapHeader⟩, hmapPayload⟩, rfl⟩
      · rw [hsignatures.1, UInt8.ofNat_toNat]
      · rw [hcount, UInt8.ofNat_toNat]
      · rw [hkeys.1, UInt8.ofNat_toNat]
  · rename_i hmask
    apply Codec.fail _
    rintro tx ⟨_, rfl⟩
    exact hmask ((V1Config.definedMask_iff _).mpr ⟨tx.config, rfl⟩)

/-! ### All versions -/

inductive Transaction where
  | legacyOrV0 (tx : LegacyTx)
  | v1 (tx : V1Tx)

namespace Transaction

def encode : Transaction → Bytes
  | legacyOrV0 tx => tx.encode
  | v1 tx => tx.encode

/-- The first byte tells v1 from the others. -/
def Valid : Transaction → Prop
  | legacyOrV0 tx => tx.Valid ∧ ∃ b, tx.encode.head? = some b ∧ b < 0x80
  | v1 tx => tx.Valid

end Transaction

def readTransaction : Scan Transaction := do
  let first ← peek
  if first < 0x80 then .legacyOrV0 <$> readLegacyOrV0
  else if first = 0x81 then .v1 <$> readV1
  else fail (.unknownVersion first)

theorem codec_transaction : Codec readTransaction Transaction.encode Transaction.Valid := by
  refine Codec.peek _ (fun b t => (b < 0x80 ∧ ∃ tx : LegacyTx, tx.Valid ∧ .legacyOrV0 tx = t) ∨
    (b = 0x81 ∧ ∃ tx : V1Tx, tx.Valid ∧ .v1 tx = t)) ?_ ?_ ?_ fun b => ?_
  · intro t ht
    cases t with
    | legacyOrV0 tx =>
      obtain ⟨htx, b, hb, hlt⟩ := ht
      exact ⟨b, hb, .inl ⟨hlt, tx, htx, rfl⟩⟩
    | v1 tx => exact ⟨0x81, rfl, .inr ⟨rfl, tx, ht, rfl⟩⟩
  · rintro b t (⟨hlt, tx, htx, rfl⟩ | ⟨rfl, tx, htx, rfl⟩) hb
    · exact ⟨htx, b, hb, hlt⟩
    · exact htx
  · rintro b t (⟨_, tx, htx, rfl⟩ | ⟨_, tx, htx, rfl⟩)
    · intro hnil
      have hlen := congrArg List.length hnil
      simp only [Transaction.encode, LegacyTx.encode, LegacyTx.encodeMessage, List.length_append,
        htx.message.header, List.length_nil] at hlen
      omega
    · exact List.cons_ne_nil _ _
  · split
    · rename_i hlt
      refine Codec.on (codec_legacyOrV0.map _ (fun _ _ => rfl) fun t => ?_)
      constructor
      · intro h
        rcases h with ⟨_, h⟩ | ⟨rfl, _⟩
        · exact h
        · exact absurd hlt (by decide)
      · exact fun h => .inl ⟨hlt, h⟩
    · rename_i hge
      split
      · rename_i hb
        subst hb
        refine codec_v1.map _ (fun _ _ => rfl) fun t => ?_
        constructor
        · intro h
          rcases h with ⟨hlt, _⟩ | ⟨_, h⟩
          · exact absurd hlt hge
          · exact h
        · exact fun h => .inr ⟨rfl, h⟩
      · rename_i hne
        refine Codec.on (Codec.fail _ ?_)
        rintro t (⟨hlt, _⟩ | ⟨hb, _⟩)
        · exact hge hlt
        · exact hne hb

end Deshred
