import Deshred.Entries

/-!
# The transaction id

`signature` reads 64 bytes at an offset the scanner kept in 16 bits. Nothing there says
that the transaction has a signature, nor that the offset fitted.
-/

namespace Deshred
open Scanner View

/-! ### Where the signatures stand -/

/-- What stands before the signatures: instruction payloads last. -/
def V1Tx.front (tx : V1Tx) : Bytes :=
  [0x81, UInt8.ofNat tx.signatures.length] ++ tx.readonlyCounts ++ leBytes 4 tx.config.mask.toNat ++ tx.blockhash ++
    [UInt8.ofNat tx.instructions.length, UInt8.ofNat tx.keys.length] ++ tx.keys.flatten ++ tx.config.encode ++
    (tx.instructions.map V1Instruction.header).flatten ++ (tx.instructions.map V1Instruction.payload).flatten

namespace Transaction

/-- What stands before the signatures: their count, and in v1 all the rest. -/
def front : Transaction → Bytes
  | legacyOrV0 tx => tx.signatures.lengthBytes
  | v1 tx => tx.front

def signatures : Transaction → List Bytes
  | legacyOrV0 tx => tx.signatures.items
  | v1 tx => tx.signatures

/- What stands behind them. -/
def back : Transaction → Bytes
  | legacyOrV0 tx => tx.versionByte ++ tx.encodeMessage
  | v1 _ => []

theorem encode_eq (t : Transaction) : t.encode = t.front ++ (t.signatures.flatten ++ t.back) := by
  cases t with
  | legacyOrV0 tx => simp [encode, LegacyTx.encode, ShortVec.encode, front, signatures, back]
  | v1 tx => simp [encode, V1Tx.encode, V1Tx.encodeBody, V1Tx.front, front, signatures, back]

theorem Valid.signatures_length {t : Transaction} (h : t.Valid) : ∀ s ∈ t.signatures, s.length = 64 := by
  cases t with
  | legacyOrV0 tx => exact h.1.signatures.items
  | v1 tx => exact h.signatures.2

theorem Valid.flatten_length {t : Transaction} (h : t.Valid) : t.signatures.flatten.length = 64 * t.signatures.length := by
  rw [List.length_flatten, List.map_congr_left h.signatures_length, List.map_const', List.sum_replicate_nat, Nat.mul_comm]

theorem Valid.encode_length {t : Transaction} (h : t.Valid) :
    t.encode.length = t.front.length + 64 * t.signatures.length + t.back.length := by
  rw [encode_eq, List.length_append, List.length_append, h.flatten_length, Nat.add_assoc]

/-- The count of a legacy or v0 transaction is one byte, since the first one is below 0x80. -/
theorem lengthBytes_of_valid {tx : LegacyTx} (h : (legacyOrV0 tx).Valid) :
    ∃ b, tx.signatures.lengthBytes = [b] ∧ b.toNat < 128 := by
  obtain ⟨htx, b, hb, hlt⟩ := h
  have hshort := htx.signatures.length
  have hlow : b.toNat < 128 := UInt8.lt_iff_toNat_lt.mp hlt
  cases hl : tx.signatures.lengthBytes with
  | nil =>
    rw [hl] at hshort
    exact absurd hshort id
  | cons first rest =>
    rw [LegacyTx.encode, ShortVec.encode, hl, List.cons_append, List.cons_append, List.head?_cons,
      Option.some.injEq] at hb
    rw [hl, hb, IsShortvec, if_pos ((and_0x80_eq_zero_iff b).mpr hlow)] at hshort
    exact ⟨b, by rw [hb, hshort], hlow⟩

theorem Valid.front_length {t : Transaction} (h : t.Valid) (hv : t.view.version ≠ .v1) : t.front.length = 1 := by
  cases t with
  | legacyOrV0 tx =>
    obtain ⟨b, hb, _⟩ := lengthBytes_of_valid h
    rw [front, hb]
    rfl
  | v1 tx => exact absurd rfl hv

theorem Valid.numSignatures {t : Transaction} (h : t.Valid) : t.view.numSignatures = t.signatures.length := by
  cases t with
  | legacyOrV0 tx =>
    obtain ⟨b, hb, hlt⟩ := lengthBytes_of_valid h
    have hcount : tx.signatures.items.length = b.toNat := by
      rw [h.1.signatures.count, hb, shortvecValue, shortvecValueFrom, shortvecValueFrom, and_0x7F, Nat.zero_or,
        Nat.shiftLeft_zero, Nat.mod_eq_of_lt hlt]
      -- one length byte: the next step of the loop has no byte to read
      intro _ _ _ _ _ hnone
      cases hnone
    show tx.signatures.items.length % 2 ^ 8 = _
    rw [Nat.mod_eq_of_lt (by omega)]
    rfl
  | v1 tx => rfl

theorem Valid.signaturesOffset {t : Transaction} (h : t.Valid) :
    t.view.signaturesOffset = t.front.length % 2 ^ 16 := by
  cases t with
  | legacyOrV0 tx => rfl
  | v1 tx =>
    have hlen := h.encode_length
    have hsub : tx.encode.length - tx.signatures.length * 64 = tx.front.length := by
      simp only [encode, front, signatures, back, List.length_nil] at hlen
      omega
    show (tx.encode.length - tx.signatures.length * 64) % 2 ^ 16 = _
    rw [hsub]
    rfl

end Transaction

/-! ### What `signature` reads -/

theorem TxView.signature_eq_some {v : TxView} (h : v.signaturesOffset + 64 ≤ v.bytes.length) :
    v.signature = some ((v.bytes.drop v.signaturesOffset).take 64) := by
  have hrest : 64 ≤ (v.bytes.drop v.signaturesOffset).length := by
    rw [List.length_drop]
    omega
  rw [signature, if_pos ⟨by omega, hrest⟩]

theorem TxView.signature_isSome_iff (v : TxView) :
    v.signature.isSome = true ↔ v.signaturesOffset + 64 ≤ v.bytes.length := by
  simp only [signature, List.length_drop]
  split
  · rename_i hin
    simp only [Option.isSome_some, true_iff]
    omega
  · rename_i hout
    simp only [Option.isSome_none, Bool.false_eq_true, false_iff]
    omega

namespace Transaction
variable {t : Transaction}

/- The first signature, where the wire has it. -/
theorem Valid.first_signature (h : t.Valid) {s : Bytes} {ss : List Bytes} (hs : t.signatures = s :: ss) :
    (t.encode.drop t.front.length).take 64 = s := by
  have hlen := h.signatures_length s (by rw [hs]; exact List.mem_cons_self)
  rw [encode_eq, List.drop_left, hs, List.flatten_cons, List.append_assoc, ← hlen, List.take_left]

/-- With a signature, `signature` reads at the offset as 16 bits have it. -/
theorem Valid.signature_eq (h : t.Valid) (hn : 1 ≤ t.signatures.length) :
    t.view.signature = some ((t.encode.drop (t.front.length % 2 ^ 16)).take 64) := by
  have hmod := Nat.mod_le t.front.length (2 ^ 16)
  have hlen := h.encode_length
  rw [TxView.signature_eq_some, view_bytes, h.signaturesOffset]
  rw [view_bytes, h.signaturesOffset]
  omega

end Transaction

/-- `signature` is the transaction's first signature when this starts before byte 65536 of
the transaction, or when the same bytes happen to stand 65536 bytes, or a multiple of it,
before. Behind a count of signatures it always does. -/
theorem signature_is_first_iff {c c' : Cursor UInt8} {v : TxView} (h : scanTransaction.run c = .ok (v, c'))
    (hn : 1 ≤ v.numSignatures) : ∃ t s, readTransaction.run c = .ok (t, c') ∧ v = t.view ∧
    t.signatures.head? = some s ∧ (v.bytes.drop t.front.length).take 64 = s ∧
    (v.version ≠ .v1 → t.front.length = 1) ∧
    (v.signature = some s ↔
      t.front.length < 2 ^ 16 ∨ (v.bytes.drop (t.front.length % 2 ^ 16)).take 64 = s) := by
  obtain ⟨t, hread, ht, rfl⟩ := valid_of_scanTransaction h
  rw [ht.numSignatures] at hn
  obtain ⟨s, ss, hs⟩ := List.exists_cons_of_length_pos hn
  have hfirst := ht.first_signature hs
  rw [t.view_bytes]
  refine ⟨t, s, hread, rfl, by rw [hs]; rfl, hfirst, ht.front_length, ?_⟩
  rw [ht.signature_eq hn, Option.some.injEq]
  constructor
  · exact .inr
  · intro hor
    rcases hor with hlt | hsame
    · rw [Nat.mod_eq_of_lt hlt, hfirst]
    · exact hsame

/- One instruction, one signature, and nothing else. -/
def oneInstruction (data : Bytes) : V1Tx where
  readonlyCounts := [0, 0]
  blockhash := List.replicate 32 0
  keys := []
  config := ⟨none, none, none, none⟩
  instructions := [⟨0, [], data⟩]
  signatures := [List.replicate 64 0]

theorem oneInstruction_valid {data : Bytes} (h : data.length < 65536) : (Transaction.v1 (oneInstruction data)).Valid where
  readonlyCounts := rfl
  blockhash := rfl
  keys := ⟨Nat.zero_lt_succ _, nofun⟩
  instructions := by
    refine ⟨show 1 < 256 by decide, fun ix hix => ?_⟩
    rw [List.mem_singleton.mp hix]
    exact ⟨show 0 < 256 by decide, h⟩
  signatures := by
    refine ⟨show 1 < 256 by decide, fun s hs => ?_⟩
    rw [List.mem_singleton.mp hs]
    rfl

theorem oneInstruction_front (data : Bytes) : (oneInstruction data).front.length = 46 + data.length := by
  have hfront : (oneInstruction data).front = ([0x81, 1, 0, 0] ++ leBytes 4 0 ++ List.replicate 32 0 ++ [1, 0]) ++
      ([0, 0] ++ leBytes 2 data.length) ++ data := by
    have hmask : (⟨none, none, none, none⟩ : V1Config).mask.toNat = 0 := rfl
    have hvalues : (⟨none, none, none, none⟩ : V1Config).encode = [] := rfl
    simp [V1Tx.front, oneInstruction, V1Instruction.header, V1Instruction.payload, hmask, hvalues]
  rw [hfront, List.length_append]
  rfl

/- The instruction data ends at byte 65536. -/
def wrappedTx : V1Tx := oneInstruction (List.replicate 65490 0)

theorem wrappedTx_valid : (Transaction.v1 wrappedTx).Valid :=
  oneInstruction_valid (List.length_replicate.trans_lt (by decide))

theorem wrappedTx_front : wrappedTx.front.length = 2 ^ 16 := by
  rw [wrappedTx, oneInstruction_front, List.length_replicate]
  rfl

theorem scan_encoded_v1 {tx : V1Tx} (h : (Transaction.v1 tx).Valid) :
    ∃ c', scanTransaction.run ⟨tx.encode, 0⟩ = .ok ((Transaction.v1 tx).view, c') := by
  have hscan := reads_transaction h [] []
  rw [List.append_nil] at hscan
  exact ⟨_, hscan⟩

theorem signature_is_first_iff_wrapped : ∃ v c' t s, scanTransaction.run ⟨wrappedTx.encode, 0⟩ = .ok (v, c') ∧
    readTransaction.run ⟨wrappedTx.encode, 0⟩ = .ok (t, c') ∧ v = t.view ∧
    t.signatures.head? = some s ∧ (v.bytes.drop t.front.length).take 64 = s ∧
    (v.version ≠ .v1 → t.front.length = 1) ∧
    (v.signature = some s ↔
      t.front.length < 2 ^ 16 ∨ (v.bytes.drop (t.front.length % 2 ^ 16)).take 64 = s) := by
  obtain ⟨c', hscan⟩ := scan_encoded_v1 wrappedTx_valid
  obtain ⟨t, s, h⟩ := signature_is_first_iff hscan (Nat.le_refl 1)
  exact ⟨_, c', t, s, hscan, h⟩

/-- The offset of the signature is 0 in 16 bits: the id begins with the version byte. -/
theorem signature_offset_wraps : ∃ v c', scanTransaction.run ⟨wrappedTx.encode, 0⟩ = .ok (v, c') ∧
    v.numSignatures = 1 ∧ wrappedTx.signatures.head? = some (List.replicate 64 0) ∧
    (v.bytes.drop wrappedTx.front.length).take 64 = List.replicate 64 0 ∧
    ∃ id, v.signature = some id ∧ id.head? = some 0x81 ∧ id ≠ List.replicate 64 0 := by
  obtain ⟨c', hscan⟩ := scan_encoded_v1 wrappedTx_valid
  have hid := wrappedTx_valid.signature_eq (t := .v1 wrappedTx) (by decide)
  have hfirst := wrappedTx_valid.first_signature (t := .v1 wrappedTx) rfl
  rw [Transaction.front, wrappedTx_front, Nat.mod_self, List.drop_zero] at hid
  refine ⟨_, c', hscan, rfl, rfl, hfirst, _, hid, rfl, ?_⟩
  intro heq
  have hhead := congrArg List.head? heq
  exact absurd hhead (by decide)

/-! ### When there is none -/

theorem LegacyTx.version_ne_v1 (tx : LegacyTx) : tx.version ≠ .v1 := by
  unfold LegacyTx.version
  split <;> decide

/-- `signature` returns when the transaction has a signature. Without one it returns when
64 other bytes stand where it reads. -/
theorem signature_returns_iff {entry : EntryView} {v : TxView} (hv : .ok v ∈ entry.iter.items scanTransaction) :
    v.signature.isSome = true ↔
      1 ≤ v.numSignatures ∨ if v.version = .v1 then 2 ^ 16 ≤ v.bytes.length else 65 ≤ v.bytes.length := by
  rw [Iter.items_eq_scanAll] at hv
  have hread : .ok v ∈ scanAll scanTransaction entry.iter.remaining ⟨[] ++ entry.iter.cursor.bytes, 0⟩ := hv
  obtain ⟨⟨t, ht, rfl⟩, _⟩ := @Codec.mem_scanAll _ _ _ _ _ _ codec_scanTransaction _ _ [] _ hread
  have hlen := ht.encode_length
  rw [TxView.signature_isSome_iff, ht.signaturesOffset, ht.numSignatures, t.view_bytes]
  cases t with
  | legacyOrV0 tx =>
    have hfront := ht.front_length tx.version_ne_v1
    rw [if_neg (show (Transaction.legacyOrV0 tx).view.version ≠ .v1 from tx.version_ne_v1), hfront]
    rw [hfront] at hlen
    omega
  | v1 tx =>
    -- the signatures are the end of the transaction
    have hback : (Transaction.v1 tx).back.length = 0 := rfl
    rw [if_pos (show (Transaction.v1 tx).view.version = .v1 from rfl)]
    omega

/- An entry with one transaction, which has no signatures. -/
def unsignedEntry : Entry := ⟨2, List.replicate 32 9, [.legacyOrV0 emptyTx]⟩

theorem unsignedEntry_wellFormed : unsignedEntry.WellFormed := by
  refine ⟨by decide, rfl, by decide, fun t ht => ?_⟩
  rw [List.mem_singleton.mp ht]
  exact emptyTx_wellFormed

theorem unsigned_transaction : ∃ it entry, entries (encodeSegment [unsignedEntry]) = .ok it ∧
    it.items scanEntry = [.ok entry] ∧ entry.iter.items scanTransaction = [.ok (Transaction.legacyOrV0 emptyTx).view] := by
  obtain ⟨it, hit, hitems⟩ := entries_encodeSegment (show [unsignedEntry].length < 2 ^ 64 by decide)
    (List.forall_mem_singleton.mpr unsignedEntry_wellFormed) []
  rw [List.append_nil] at hit
  exact ⟨it, unsignedEntry.view, hit, hitems, unsignedEntry_wellFormed.items⟩

theorem signature_returns_iff_sample : ∃ (entry : EntryView) (v : TxView), .ok v ∈ entry.iter.items scanTransaction ∧
    (v.signature.isSome = true ↔
      1 ≤ v.numSignatures ∨ if v.version = .v1 then 2 ^ 16 ≤ v.bytes.length else 65 ≤ v.bytes.length) := by
  obtain ⟨_, entry, _, _, hv⟩ := unsigned_transaction
  have hmem : .ok (Transaction.legacyOrV0 emptyTx).view ∈ entry.iter.items scanTransaction := by
    rw [hv]
    exact List.mem_cons_self
  exact ⟨entry, _, hmem, signature_returns_iff hmem⟩

/-- A transaction without signatures is accepted, and asking for its id panics. -/
theorem signature_panics : ∃ it entry v, entries (encodeSegment [unsignedEntry]) = .ok it ∧
    it.items scanEntry = [.ok entry] ∧ entry.iter.items scanTransaction = [.ok v] ∧ v.bytes.length = 38 ∧
    v.numSignatures = 0 ∧ v.signature = none := by
  obtain ⟨it, entry, hit, hentry, hv⟩ := unsigned_transaction
  exact ⟨it, entry, _, hit, hentry, hv, by decide, rfl, by decide⟩

end Deshred
