import Mathlib.Data.List.Forall2
import Deshred.Scanning

/-!
# Segments

Entries as a leader writes them, and that the iterators hand them out again.
-/

namespace Deshred
open Scanner View

namespace LegacyTx

/-- At most 127 signatures, a header that no version byte looks like, and each length in
its compact form. -/
structure WellFormed (tx : LegacyTx) : Prop where
  signatures : tx.signatures.items.length ≤ 127 ∧ ∀ s ∈ tx.signatures.items, s.length = 64
  header : tx.header.length = 3 ∧ u8At tx.header 0 < 0x80
  keys : ∀ s ∈ tx.keys.items, s.length = 32
  blockhash : tx.blockhash.length = 32
  lookups : ∀ lookups, tx.lookups = some lookups → ∀ l ∈ lookups.items, l.table.length = 32
  canonical : tx.Canonical

end LegacyTx

theorem ShortVec.Canonical.valid {α : Type} {v : ShortVec α} (h : v.Canonical) {V : List α → Prop} (hV : V v.items) :
    v.Valid V where
  length := h.lengthBytes ▸ isShortvec_compactU16 h.items
  count := by rw [h.lengthBytes, shortvecValue_compactU16 h.items]
  items := hV

theorem LegacyTx.WellFormed.valid {tx : LegacyTx} (h : tx.WellFormed) : (Transaction.legacyOrV0 tx).Valid := by
  have hc := h.canonical
  have hfirst : tx.signatures.lengthBytes = [UInt8.ofNat tx.signatures.items.length] := by
    have hn := h.signatures.1
    rw [hc.signatures.lengthBytes, compactU16, if_pos (by omega)]
  refine ⟨⟨hc.signatures.valid h.signatures.2, ⟨h.header.1, hc.keys.valid h.keys, h.blockhash, ?_, ?_⟩, fun _ => ?_⟩, ?_⟩
  · exact hc.instructions.1.valid fun ix hix =>
      ⟨(hc.instructions.2 ix hix).accounts.valid trivial, (hc.instructions.2 ix hix).data.valid trivial⟩
  · intro lookups hl
    exact (hc.lookups lookups hl).1.valid fun l hmem => ⟨h.lookups lookups hl l hmem,
      ((hc.lookups lookups hl).2 l hmem).writable.valid trivial, ((hc.lookups lookups hl).2 l hmem).readonly.valid trivial⟩
  · rw [and_0x80_eq_zero_iff]
    exact UInt8.lt_iff_toNat_lt.mp h.header.2
  · refine ⟨UInt8.ofNat tx.signatures.items.length, ?_, ?_⟩
    · rw [LegacyTx.encode, ShortVec.encode, hfirst]
      rfl
    · have hn := h.signatures.1
      rw [UInt8.lt_iff_toNat_lt, UInt8.toNat_ofNat', Nat.mod_eq_of_lt (by omega)]
      exact Nat.lt_succ_of_le hn

namespace Transaction

def version : Transaction → TxVersion
  | legacyOrV0 tx => tx.version
  | v1 _ => .v1

def numSignatures : Transaction → ℕ
  | legacyOrV0 tx => tx.signatures.items.length
  | v1 tx => tx.signatures.length

def WellFormed : Transaction → Prop
  | legacyOrV0 tx => tx.WellFormed
  | v1 tx => tx.Valid

theorem WellFormed.valid {t : Transaction} (h : t.WellFormed) : t.Valid := by
  cases t with
  | legacyOrV0 tx => exact LegacyTx.WellFormed.valid h
  | v1 tx => exact h

/-- The view says what the transaction is. -/
structure SeenAs (t : Transaction) (v : TxView) : Prop where
  bytes : v.bytes = t.encode
  version : v.version = t.version
  numSignatures : v.numSignatures = t.numSignatures

theorem WellFormed.seenAs {t : Transaction} (h : t.WellFormed) : t.SeenAs t.view := by
  cases t with
  | legacyOrV0 tx =>
    have hn : tx.signatures.items.length ≤ 127 := h.signatures.1
    exact ⟨rfl, rfl, Nat.mod_eq_of_lt (by omega)⟩
  | v1 tx => exact ⟨rfl, rfl, rfl⟩

end Transaction

structure Entry where
  numHashes : ℕ
  hash : Bytes
  transactions : List Transaction

namespace Entry

def encode (e : Entry) : Bytes :=
  leBytes 8 e.numHashes ++ (e.hash ++ (leBytes 8 e.transactions.length ++ e.transactions.flatMap Transaction.encode))

/- The counts are written as 64-bit numbers. -/
structure WellFormed (e : Entry) : Prop where
  numHashes : e.numHashes < 2 ^ 64
  hash : e.hash.length = 32
  transactions : e.transactions.length < 2 ^ 64 ∧ ∀ t ∈ e.transactions, t.WellFormed

def view (e : Entry) : EntryView :=
  ⟨e.numHashes, e.hash, e.transactions.length, e.transactions.flatMap Transaction.encode⟩

/-- The view has the entry's fields and its iterator yields the entry's transactions. -/
structure SeenAs (e : Entry) (v : EntryView) : Prop where
  numHashes : v.numHashes = e.numHashes
  hash : v.hash = e.hash
  numTransactions : v.numTransactions = e.transactions.length
  transactions : ∃ views : List TxView, v.iter.items scanTransaction = views.map .ok ∧
    List.Forall₂ Transaction.SeenAs e.transactions views

end Entry

def encodeSegment (es : List Entry) : Bytes := leBytes 8 es.length ++ es.flatMap Entry.encode

/-- An iterator over encodings yields what they read as, and then stops. -/
theorem items_of_reads {ι α : Type} {scan : Scan α} {enc : ι → Bytes} {f : ι → α} {as : List ι}
    (h : ∀ a ∈ as, Reads scan (enc a) (f a)) (before after : Bytes) :
    Iter.items scan ⟨⟨before ++ (as.flatMap enc ++ after), before.length⟩, as.length⟩ =
      (as.map f).map .ok := by
  induction as generalizing before with
  | nil => rfl
  | cons a as ih =>
    have hread := h a List.mem_cons_self before (as.flatMap enc ++ after)
    have hrest := ih (fun b hb => h b (List.mem_cons_of_mem _ hb)) (before ++ enc a)
    have hnext : Iter.next scan ⟨⟨before ++ ((a :: as).flatMap enc ++ after), before.length⟩, (a :: as).length⟩ =
        some (.ok (f a), ⟨⟨before ++ (enc a ++ (as.flatMap enc ++ after)), (before ++ enc a).length⟩, as.length⟩) := by
      rw [List.flatMap_cons, List.append_assoc (enc a)]
      simp only [Iter.next, List.length_cons, hread]
    rw [Iter.items_next, hnext]
    dsimp only
    rw [← List.append_assoc before, hrest]
    rfl

namespace Entry

theorem WellFormed.items {e : Entry} (h : e.WellFormed) :
    e.view.iter.items scanTransaction = (e.transactions.map Transaction.view).map .ok := by
  have hitems := items_of_reads (fun t ht => reads_transaction (h.transactions.2 t ht).valid) [] []
  rwa [List.append_nil] at hitems

theorem WellFormed.seenAs {e : Entry} (h : e.WellFormed) : e.SeenAs e.view :=
  ⟨rfl, rfl, rfl, e.transactions.map Transaction.view, h.items,
    List.forall₂_map_right_iff.mpr (List.forall₂_same.mpr fun t ht => (h.transactions.2 t ht).seenAs)⟩

theorem WellFormed.reads {e : Entry} (h : e.WellFormed) : Reads scanEntry e.encode e.view := by
  have htxs : Reads (repeatN ((fun _ => ()) <$> scanTransaction) (e.transactions.map Transaction.encode).length)
      (e.transactions.map Transaction.encode).flatten () := by
    apply Reads.repeatN
    intro s hs
    obtain ⟨t, ht, rfl⟩ := List.mem_map.mp hs
    exact (reads_transaction (h.transactions.2 t ht).valid).map _
  rw [List.length_map] at htxs
  have hhash : Reads (View.take 32) e.hash e.hash := (Codec.take _ 32).reads e.hash h.hash
  have hnum := codec_u64.reads _ h.numHashes
  have hcount := codec_u64.reads _ h.transactions.1
  have hspan := htxs.span fun s => EntryView.mk e.numHashes e.hash e.transactions.length s
  rw [← List.flatMap_def] at hspan
  exact hnum.bind (hhash.bind (hcount.bind hspan))

end Entry

theorem entries_encodeSegment {es : List Entry} (hcount : es.length < 2 ^ 64) (h : ∀ e ∈ es, e.WellFormed)
    (trailing : Bytes) : ∃ it, entries (encodeSegment es ++ trailing) = .ok it ∧
      it.items scanEntry = (es.map Entry.view).map .ok := by
  have hread := codec_u64.reads _ hcount [] (es.flatMap Entry.encode ++ trailing)
  have hentries : entries (encodeSegment es ++ trailing) =
      .ok ⟨⟨leBytes 8 es.length ++ (es.flatMap Entry.encode ++ trailing), (leBytes 8 es.length).length⟩, es.length⟩ := by
    rw [encodeSegment, List.append_assoc, entries]
    simp only [List.nil_append, List.length_nil] at hread
    rw [hread]
  exact ⟨_, hentries, items_of_reads (fun e he => (h e he).reads) _ _⟩

/-- The scanner reads back every well-formed segment, whatever follows it. -/
theorem reads_back (es : List Entry) (hcount : es.length < 2 ^ 64) (h : ∀ e ∈ es, e.WellFormed) (trailing : Bytes) :
    ∃ it views, entries (encodeSegment es ++ trailing) = .ok it ∧ it.items scanEntry = views.map .ok ∧
      List.Forall₂ Entry.SeenAs es views := by
  obtain ⟨it, hentries, hitems⟩ := entries_encodeSegment hcount h trailing
  exact ⟨it, es.map Entry.view, hentries, hitems,
    List.forall₂_map_right_iff.mpr (List.forall₂_same.mpr fun e he => (h e he).seenAs)⟩

/- A legacy transaction with nothing in it. -/
def emptyTx : LegacyTx := { paddedTx with keys := ⟨[0x00], []⟩ }

theorem emptyTx_wellFormed : emptyTx.WellFormed where
  signatures := ⟨by decide, nofun⟩
  header := ⟨rfl, by decide⟩
  keys := nofun
  blockhash := rfl
  lookups := nofun
  canonical := ⟨⟨by decide, by decide⟩, ⟨by decide, by decide⟩, ⟨⟨by decide, by decide⟩, nofun⟩, nofun⟩

/- A v0 transaction with one of everything. -/
def lookupTx : LegacyTx where
  signatures := ⟨[0x01], [List.replicate 64 3]⟩
  header := [1, 0, 0]
  keys := ⟨[0x01], [List.replicate 32 4]⟩
  blockhash := List.replicate 32 0
  instructions := ⟨[0x01], [⟨0, ⟨[0x01], [0]⟩, ⟨[0x02], [5, 6]⟩⟩]⟩
  lookups := some ⟨[0x01], [⟨List.replicate 32 8, ⟨[0x01], [2]⟩, ⟨[0x00], []⟩⟩]⟩

theorem lookupTx_wellFormed : lookupTx.WellFormed where
  signatures := by
    refine ⟨by decide, fun s hs => ?_⟩
    rw [List.mem_singleton.mp hs]
    rfl
  header := ⟨rfl, by decide⟩
  keys := by
    intro s hs
    rw [List.mem_singleton.mp hs]
    rfl
  blockhash := rfl
  lookups := by
    intro lookups hlookups l hl
    rw [← Option.some.inj hlookups] at hl
    rw [List.mem_singleton.mp hl]
    rfl
  canonical := by
    refine ⟨⟨by decide, by decide⟩, ⟨by decide, by decide⟩, ⟨⟨by decide, by decide⟩, fun ix hix => ?_⟩, ?_⟩
    · rw [List.mem_singleton.mp hix]
      exact ⟨⟨by decide, by decide⟩, ⟨by decide, by decide⟩⟩
    · intro lookups hlookups
      rw [← Option.some.inj hlookups]
      refine ⟨⟨by decide, by decide⟩, fun l hl => ?_⟩
      rw [List.mem_singleton.mp hl]
      exact ⟨⟨by decide, by decide⟩, ⟨by decide, by decide⟩⟩

/- A v1 transaction whose config has the fee and one word. -/
def configTx : V1Tx where
  readonlyCounts := [0, 1]
  blockhash := List.replicate 32 0
  keys := [List.replicate 32 4]
  config := ⟨some ⟨List.replicate 8 1, rfl⟩, none, some ⟨List.replicate 4 2, rfl⟩, none⟩
  instructions := [⟨0, [0], [5, 6, 7]⟩]
  signatures := [List.replicate 64 3]

theorem configTx_valid : configTx.Valid where
  readonlyCounts := rfl
  blockhash := rfl
  keys := by
    refine ⟨by decide, fun s hs => ?_⟩
    rw [List.mem_singleton.mp hs]
    rfl
  instructions := by
    refine ⟨by decide, fun ix hix => ?_⟩
    rw [List.mem_singleton.mp hix]
    exact ⟨by decide, by decide⟩
  signatures := by
    refine ⟨by decide, fun s hs => ?_⟩
    rw [List.mem_singleton.mp hs]
    rfl

/- An entry without transactions, and one with a transaction of each version. -/
def sampleEntries : List Entry := [⟨1, List.replicate 32 0, []⟩,
  ⟨2, List.replicate 32 9, [.legacyOrV0 emptyTx, .legacyOrV0 lookupTx, .v1 configTx]⟩]

theorem sampleEntries_wellFormed : ∀ e ∈ sampleEntries, e.WellFormed := by
  intro e he
  simp only [sampleEntries, List.mem_cons, List.not_mem_nil, or_false] at he
  rcases he with rfl | rfl
  · exact ⟨by decide, rfl, by decide, nofun⟩
  · refine ⟨by decide, rfl, by decide, fun t ht => ?_⟩
    simp only [List.mem_cons, List.not_mem_nil, or_false] at ht
    rcases ht with rfl | rfl | rfl
    · exact emptyTx_wellFormed
    · exact lookupTx_wellFormed
    · exact configTx_valid

/-- All three versions, config values and lookups, and a byte behind them. -/
theorem reads_back_versions : configTx.config.mask = 0b1011 ∧
    ∃ it views, entries (encodeSegment sampleEntries ++ [7]) = .ok it ∧ it.items scanEntry = views.map .ok ∧
      List.Forall₂ Entry.SeenAs sampleEntries views :=
  ⟨by decide, reads_back sampleEntries (by decide) sampleEntries_wellFormed [7]⟩

end Deshred
