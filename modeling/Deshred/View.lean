import Deshred.Lib.Scanner
import Deshred.Bytes

/-!
# Views into a segment (view.rs)

The scanner finds where each entry and each transaction of a segment starts and ends.
Views keep the bytes they borrow.
-/

namespace Deshred

inductive ViewError where
  | truncated (offset : ℕ)
  | badShortVec (offset : ℕ)
  | unknownVersion (version : UInt8)
  | badConfigMask
  deriving DecidableEq

inductive TxVersion where
  | legacy
  | v0
  | v1
  deriving DecidableEq

structure TxView where
  bytes : Bytes
  version : TxVersion
  signaturesOffset : ℕ
  numSignatures : ℕ
  deriving DecidableEq

/-- The transaction id: its first signature. `none` is where `split_at` or the `unwrap`
panics. -/
def TxView.signature (v : TxView) : Option Bytes :=
  let rest := v.bytes.drop v.signaturesOffset
  if v.signaturesOffset ≤ v.bytes.length ∧ 64 ≤ rest.length then some (rest.take 64) else none

/-- One entry, transactions still serialized. -/
structure EntryView where
  numHashes : ℕ
  hash : Bytes
  numTransactions : ℕ
  transactions : Bytes
  deriving DecidableEq

namespace View
open Scanner

abbrev Scan (α : Type) := Scanner ViewError UInt8 α

/-! ### The cursor -/

def take (n : ℕ) : Scan Bytes := Scanner.take .truncated n

def peek : Scan UInt8 := Scanner.peek .truncated

def chunks (k n : ℕ) : Scan (List Bytes) := Scanner.chunks .truncated k n

def u8 : Scan UInt8 := (fun taken => u8At taken 0) <$> take 1

def u64 : Scan ℕ := leVal <$> take 8

def u32 : Scan UInt32 := (fun taken => UInt32.ofNat (leVal taken)) <$> take 4

def shortvecFrom (start : ℕ) : List ℕ → ℕ → Scan ℕ
  | [], _ => fail (.badShortVec start)
  | shift :: shifts, value => do
    let byte ← u8
    let value := value ||| ((byte &&& 0x7F).toNat <<< shift)
    if byte &&& 0x80 = 0 then pure value else shortvecFrom start shifts value

/-- Solana's compact-u16: 7 bits per byte, at most 3 bytes. -/
def shortvecLen : Scan ℕ := do
  let start ← offset
  shortvecFrom start [0, 7, 14] 0

/-! ### Transactions -/

def scanInstruction : Scan Unit := do
  let _ ← u8
  let numAccounts ← shortvecLen
  let _ ← take numAccounts
  let dataLen ← shortvecLen
  let _ ← take dataLen
  pure ()

def scanLookup : Scan Unit := do
  let _ ← take 32
  let writable ← shortvecLen
  let _ ← take writable
  let readonly ← shortvecLen
  let _ ← take readonly
  pure ()

/- `scan_legacy_or_v0` from the header on. -/
def scanMessage (version : TxVersion) : Scan Unit := do
  let _ ← take 3
  let numKeys ← shortvecLen
  let _ ← take (numKeys * 32)
  let _ ← take 32
  let numInstructions ← shortvecLen
  repeatN scanInstruction numInstructions
  if version = .v0 then do
    let numLookups ← shortvecLen
    repeatN scanLookup numLookups
  else pure ()

def scanVersion (messageFirst : UInt8) : Scan TxVersion :=
  if messageFirst &&& 0x80 = 0 then pure .legacy
  else if messageFirst = 0x80 then do
    let _ ← u8
    pure .v0
  else fail (.unknownVersion messageFirst)

def scanLegacyOrV0 (start : ℕ) : Scan TxView := do
  let numSignatures ← shortvecLen
  let here ← offset
  let _ ← take (numSignatures * 64)
  let messageFirst ← peek
  let version ← scanVersion messageFirst
  scanMessage version
  let bytes ← spanFrom start
  pure ⟨bytes, version, (here - start) % 2 ^ 16, numSignatures % 2 ^ 8⟩

/- Unknown bits, or only one of the two bits of the priority fee. -/
def badMask (mask : UInt32) : Bool :=
  mask &&& ~~~0b11111 ≠ 0 ∨ (mask &&& 0b11 ≠ 0 ∧ mask &&& 0b11 ≠ 0b11)

def configLen (mask : UInt32) : ℕ :=
  (if mask &&& 0b11 ≠ 0 then 8 else 0) + (if mask &&& 0b100 ≠ 0 then 4 else 0) +
    (if mask &&& 0b1000 ≠ 0 then 4 else 0) + (if mask &&& 0b10000 ≠ 0 then 4 else 0)

def payloadLen (header : Bytes) : ℕ := (u8At header 1).toNat + u16At header 2

/-- Fixed-width counts, inline config, signatures at the tail. -/
def scanV1 (start : ℕ) : Scan TxView := do
  let _ ← u8
  let numSignatures ← u8
  let _ ← take 2
  let mask ← u32
  if badMask mask then fail .badConfigMask
  else do
    let _ ← take 32
    let numInstructions ← u8
    let numKeys ← u8
    let _ ← take (numKeys.toNat * 32)
    let _ ← take (configLen mask)
    let headers ← chunks 4 numInstructions.toNat
    let _ ← take (headers.map payloadLen).sum
    let here ← offset
    let _ ← take (numSignatures.toNat * 64)
    let bytes ← spanFrom start
    pure ⟨bytes, .v1, (here - start) % 2 ^ 16, numSignatures.toNat⟩

def scanTransaction : Scan TxView := do
  let start ← offset
  let first ← peek
  if first < 0x80 then scanLegacyOrV0 start
  else if first = 0x81 then scanV1 start
  else fail (.unknownVersion first)

/-! ### Iterators -/

/-- `TxIter` and `EntryIter`: a cursor and how many items remain. -/
structure Iter where
  cursor : Cursor UInt8
  remaining : ℕ

/- An error ends the iteration. -/
def Iter.next {α : Type} (scan : Scan α) (it : Iter) : Option (Except ViewError α × Iter) :=
  match it.remaining with
  | 0 => none
  | remaining + 1 =>
    match scan.run it.cursor with
    | .ok (a, cursor) => some (.ok a, ⟨cursor, remaining⟩)
    | .error e => some (.error e, ⟨it.cursor, 0⟩)

def Iter.takeN {α : Type} (scan : Scan α) : ℕ → Iter → List (Except ViewError α)
  | 0, _ => []
  | n + 1, it =>
    match it.next scan with
    | none => []
    | some (item, it') => item :: takeN scan n it'

/-- All that an iterator yields, which is no more than what remains. -/
def Iter.items {α : Type} (scan : Scan α) (it : Iter) : List (Except ViewError α) := it.takeN scan it.remaining

theorem Iter.next_remaining {α : Type} {scan : Scan α} {it it' : Iter} {item : Except ViewError α}
    (h : it.next scan = some (item, it')) : it'.remaining < it.remaining := by
  unfold Iter.next at h
  split at h
  · contradiction
  · rename_i hrem
    split at h
    · cases h
      exact hrem ▸ Nat.lt_succ_self _
    · cases h
      exact hrem ▸ Nat.succ_pos _

theorem Iter.takeN_of_le {α : Type} (scan : Scan α) {n : ℕ} {it : Iter} (h : it.remaining ≤ n) :
    it.takeN scan n = it.items scan := by
  rw [items]
  induction n using Nat.strong_induction_on generalizing it with
  | _ n ih =>
    cases n with
    | zero => rw [Nat.le_zero.mp h]
    | succ n =>
      cases hn : it.next scan with
      | none =>
        cases hr : it.remaining with
        | zero => rw [takeN, takeN, hn]
        | succ m => rw [takeN, takeN, hn]
      | some r =>
        obtain ⟨item, it'⟩ := r
        have hlt := next_remaining hn
        obtain ⟨m, hm⟩ := Nat.exists_eq_add_of_lt hlt
        rw [hm, takeN, takeN, hn]
        dsimp only
        rw [ih n (Nat.lt_succ_self n) (by omega), ih (it'.remaining + m) (by omega) (Nat.le_add_right _ _)]

theorem Iter.items_next {α : Type} (scan : Scan α) (it : Iter) : it.items scan =
    match it.next scan with
    | none => []
    | some (item, it') => item :: it'.items scan := by
  cases hn : it.next scan with
  | none =>
    rw [items]
    cases it.remaining with
    | zero => rfl
    | succ m => rw [takeN, hn]
  | some r =>
    obtain ⟨item, it'⟩ := r
    have hlt := next_remaining hn
    rw [← it.takeN_of_le scan (Nat.le_succ it.remaining), takeN, hn]
    dsimp only
    rw [takeN_of_le scan hlt.le]

/- The iterator after `n` calls of `next`. -/
def Iter.after {α : Type} (scan : Scan α) : ℕ → Iter → Iter
  | 0, it => it
  | n + 1, it =>
    match it.next scan with
    | none => it
    | some (_, it') => after scan n it'

/-- Where its first `n` items end. -/
def Iter.endOf {α : Type} (scan : Scan α) (it : Iter) (n : ℕ) : ℕ := (it.after scan n).cursor.offset

def scanEntry : Scan EntryView := do
  let numHashes ← u64
  let hash ← take 32
  let numTransactions ← u64
  let start ← offset
  repeatN ((fun _ => ()) <$> scanTransaction) numTransactions
  let transactions ← spanFrom start
  pure ⟨numHashes, hash, numTransactions, transactions⟩

def entries (segment : Bytes) : Except ViewError Iter :=
  match u64.run ⟨segment, 0⟩ with
  | .ok (remaining, cursor) => .ok ⟨cursor, remaining⟩
  | .error e => .error e

end View

namespace EntryView

def iter (entry : EntryView) : View.Iter := ⟨⟨entry.transactions, 0⟩, entry.numTransactions⟩

end EntryView

end Deshred
