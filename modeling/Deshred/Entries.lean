import Deshred.Lib.Truncation
import Deshred.Segment

/-!
# Scanning an entry a second time

An entry's transactions are scanned once inside the segment, to find where the entry
ends, and once more inside the slice that was cut out. Views are codecs of their own
bytes, so both scans find the same.
-/

namespace Deshred
open Scanner View

namespace View

theorem Iter.items_eq_scanAll {α : Type} (scan : Scan α) (it : Iter) :
    it.items scan = scanAll scan it.remaining it.cursor := by
  obtain ⟨cursor, remaining⟩ := it
  induction remaining generalizing cursor with
  | zero => rfl
  | succ n ih =>
    rw [Iter.items_next]
    cases h : scan.run cursor with
    | ok r =>
      obtain ⟨a, cursor'⟩ := r
      have hnext : Iter.next scan ⟨cursor, n + 1⟩ = some (.ok a, ⟨cursor', n⟩) := by simp only [Iter.next, h]
      rw [hnext, scanAll_ok h]
      exact congrArg (_ :: ·) (ih cursor')
    | error e =>
      have hnext : Iter.next scan ⟨cursor, n + 1⟩ = some (.error e, ⟨cursor, 0⟩) := by simp only [Iter.next, h]
      rw [hnext, scanAll_error h]
      rfl

theorem Iter.endOf_eq {α : Type} {scan : Scan α} {enc : α → Bytes} {V : α → Prop} (hp : Codec scan enc V)
    {as : List α} (hV : ∀ a ∈ as, V a) (before after : Bytes) {n remaining : ℕ} (hn : n ≤ as.length)
    (hr : as.length ≤ remaining) :
    Iter.endOf scan ⟨⟨before ++ (as.flatMap enc ++ after), before.length⟩, remaining⟩ n =
      (before ++ (as.take n).flatMap enc).length := by
  induction n generalizing as before remaining with
  | zero =>
    rw [List.take_zero, List.flatMap_nil, List.append_nil]
    rfl
  | succ n ih =>
    obtain ⟨a, as, rfl⟩ := List.exists_cons_of_length_pos (Nat.zero_lt_of_lt hn)
    obtain ⟨remaining, rfl⟩ := Nat.exists_eq_add_one_of_ne_zero (Nat.ne_zero_of_lt hr)
    have hread := hp.reads a (hV a List.mem_cons_self) before (as.flatMap enc ++ after)
    have hrest := ih (fun b hb => hV b (List.mem_cons_of_mem _ hb)) (before ++ enc a) (Nat.le_of_succ_le_succ hn)
      (Nat.le_of_succ_le_succ hr)
    rw [List.append_assoc before (enc a) (as.flatMap enc ++ after)] at hrest
    have hnext : Iter.next scan ⟨⟨before ++ (enc a ++ (as.flatMap enc ++ after)), before.length⟩, remaining + 1⟩ =
        some (.ok a, ⟨⟨before ++ (enc a ++ (as.flatMap enc ++ after)), (before ++ enc a).length⟩, remaining⟩) := by
      simp only [Iter.next, hread]
    rw [List.flatMap_cons, List.append_assoc (enc a), Iter.endOf, Iter.after, hnext,
      List.take_succ_cons, List.flatMap_cons, ← List.append_assoc before (enc a) ((as.take n).flatMap enc)]
    exact hrest

theorem entries_ok {segment : Bytes} {it : Iter} (h : entries segment = .ok it) : ∃ n rest,
    n < 2 ^ 64 ∧ segment = leBytes 8 n ++ rest ∧ it = ⟨⟨segment, (leBytes 8 n).length⟩, n⟩ := by
  unfold entries at h
  split at h
  · rename_i n c hrun
    obtain ⟨hn, rest, rfl, rfl⟩ := codec_u64.exact [] segment n c trivial hrun
    cases h
    exact ⟨n, rest, hn, rfl, rfl⟩
  · contradiction

end View

/-! ### Views as codecs -/

/-- The view of some transaction of the layout. -/
def TxView.Valid (v : TxView) : Prop := ∃ t : Transaction, t.Valid ∧ t.view = v

theorem codec_scanTransaction : Codec scanTransaction TxView.bytes TxView.Valid where
  reads := by
    rintro _ ⟨t, ht, rfl⟩
    rw [Transaction.view_bytes]
    exact reads_transaction ht
  exact before rest v c' _ h := by
    obtain ⟨t, hread, rfl⟩ := scanTransaction_ok.mp h
    obtain ⟨ht, hafter⟩ := codec_transaction.exact before rest t c' trivial hread
    rw [Transaction.view_bytes]
    exact ⟨⟨t, ht, rfl⟩, hafter⟩

namespace EntryView

def encode (entry : EntryView) : Bytes :=
  leBytes 8 entry.numHashes ++ (entry.hash ++ (leBytes 8 entry.numTransactions ++ entry.transactions))

/-- The transactions are views that stand one behind the other. -/
structure Valid (entry : EntryView) : Prop where
  numHashes : entry.numHashes < 2 ^ 64
  hash : entry.hash.length = 32
  numTransactions : entry.numTransactions < 2 ^ 64
  transactions : ∃ views : List TxView, (views.length = entry.numTransactions ∧ ∀ v ∈ views, v.Valid) ∧
    views.flatMap TxView.bytes = entry.transactions

theorem Valid.length_encode {entry : EntryView} (h : entry.Valid) :
    entry.encode.length = 48 + entry.transactions.length := by
  simp only [encode, List.length_append, leBytes_length, h.hash]
  omega

end EntryView

theorem scanEntry_eq : scanEntry = (do
    let numHashes ← u64
    let hash ← View.take 32
    let numTransactions ← u64
    let transactions ← spanned (collect scanTransaction numTransactions)
    pure ⟨numHashes, hash, numTransactions, transactions⟩) := by
  simp only [scanEntry, spanned, repeatN_map, bind_map_left, bind_assoc]

theorem codec_scanEntry : Codec scanEntry EntryView.encode EntryView.Valid := by
  rw [scanEntry_eq]
  refine CodecOn.step (fun entry => entry.numHashes) _ codec_u64 (fun _ h => h.numHashes) (fun _ _ => rfl)
    fun numHashes hnum => ?_
  refine CodecOn.step (fun entry => entry.hash) _ (Codec.take _ 32) (fun _ h => h.1.hash) (fun _ _ => rfl)
    fun hash hhash => ?_
  refine CodecOn.step (fun entry => entry.numTransactions) _ codec_u64 (fun _ h => h.1.1.numTransactions)
    (fun _ _ => rfl) fun numTransactions hcount => ?_
  refine CodecOn.step (fun entry => entry.transactions) (fun _ => [])
    (codec_scanTransaction.collect numTransactions).spanned ?_ (fun _ _ => (List.append_nil _).symm)
    fun transactions htransactions => ?_
  · rintro entry ⟨⟨⟨h, _⟩, _⟩, rfl⟩
    exact h.transactions
  · apply Codec.pure rfl
    intro entry
    constructor
    · rintro ⟨⟨⟨⟨_, rfl⟩, rfl⟩, rfl⟩, rfl⟩
      rfl
    · rintro rfl
      exact ⟨⟨⟨⟨⟨hnum, hhash, hcount, htransactions⟩, rfl⟩, rfl⟩, rfl⟩, rfl⟩

/-! ### Both scans -/

/-- The bytes of the first `k` views. -/
def sizeOf (views : List TxView) (k : ℕ) : ℕ := ((views.take k).flatMap TxView.bytes).length

/-- The entry was found at `start` in the segment. Both scans of its transactions find
`views`: the one of `scan_entry`, whose loop starts behind the header, and the one of the
iterator on the slice. After each of them both cursors are equally far. -/
structure EntryView.ScannedTwice (segment : Bytes) (entry : EntryView) (start : ℕ) (views : List TxView) : Prop where
  found : scanEntry.run ⟨segment, start⟩ = .ok (entry, ⟨segment, start + 48 + entry.transactions.length⟩)
  first : ∀ k ≤ views.length, (collect scanTransaction k).run ⟨segment, start + 48⟩ =
    .ok (views.take k, ⟨segment, start + 48 + sizeOf views k⟩)
  second : ∀ k ≤ views.length, (collect scanTransaction k).run ⟨entry.transactions, 0⟩ =
    .ok (views.take k, ⟨entry.transactions, sizeOf views k⟩)
  items : entry.iter.items scanTransaction = views.map .ok
  count : views.length = entry.numTransactions
  bytes : views.flatMap TxView.bytes = entry.transactions

/- Where a list of views stands, any number of them is found. -/
theorem collect_take {views : List TxView} (h : ∀ v ∈ views, v.Valid) (before after : Bytes) {k : ℕ}
    (hk : k ≤ views.length) :
    (collect scanTransaction k).run ⟨before ++ (views.flatMap TxView.bytes ++ after), before.length⟩ =
      .ok (views.take k, ⟨before ++ (views.flatMap TxView.bytes ++ after), before.length + sizeOf views k⟩) := by
  have hlen : (views.take k).length = k := List.length_take_of_le hk
  have hread := (codec_scanTransaction.collect k).reads (views.take k)
    ⟨hlen, fun v hv => h v (List.mem_of_mem_take hv)⟩ before ((views.drop k).flatMap TxView.bytes ++ after)
  have hsplit : (views.take k).flatMap TxView.bytes ++ (views.drop k).flatMap TxView.bytes =
      views.flatMap TxView.bytes := by
    rw [← List.flatMap_append, List.take_append_drop]
  rwa [← List.append_assoc ((views.take k).flatMap TxView.bytes), hsplit, List.length_append] at hread

/- The iterator on a list of views finds each of them. -/
theorem EntryView.iter_items {entry : EntryView} {views : List TxView} (hcount : views.length = entry.numTransactions)
    (hall : ∀ v ∈ views, v.Valid) (hbytes : views.flatMap TxView.bytes = entry.transactions) :
    entry.iter.items scanTransaction = views.map .ok := by
  have hscan := codec_scanTransaction.scanAll hall [] []
  rw [List.nil_append, List.append_nil, hbytes, hcount] at hscan
  exact (Iter.items_eq_scanAll scanTransaction entry.iter).trans hscan

/-- An entry stands where the one before it ends. -/
theorem second_scan_agrees {segment : Bytes} {it : Iter} {entry : EntryView} {j : ℕ} (hit : entries segment = .ok it)
    (hentry : (it.items scanEntry)[j]? = some (.ok entry)) :
    ∃ views, entry.ScannedTwice segment (it.endOf scanEntry j) views := by
  obtain ⟨n, rest, _, rfl, rfl⟩ := entries_ok hit
  rw [Iter.items_eq_scanAll] at hentry
  obtain ⟨hvalid, earlier, after, rfl, hearlier, rfl, hj⟩ := codec_scanEntry.getElem?_scanAll hentry
  obtain ⟨views, ⟨hcount, hall⟩, hbytes⟩ := hvalid.transactions
  have hend := Iter.endOf_eq codec_scanEntry hearlier (leBytes 8 n) (entry.encode ++ after) le_rfl hj.le
  rw [List.take_length] at hend
  rw [hend]
  let before := leBytes 8 n ++ earlier.flatMap EntryView.encode
  have heq : leBytes 8 n ++ (earlier.flatMap EntryView.encode ++ (entry.encode ++ after)) =
      before ++ (entry.encode ++ after) := by simp only [before, List.append_assoc]
  have hread := codec_scanEntry.reads entry hvalid before after
  -- the header of the entry, then its transactions
  let header := leBytes 8 entry.numHashes ++ (entry.hash ++ leBytes 8 entry.numTransactions)
  have hheader : (before ++ header).length = before.length + 48 := by
    simp only [header, List.length_append, leBytes_length, hvalid.hash]
  have hsplit : before ++ (entry.encode ++ after) = (before ++ header) ++ (views.flatMap TxView.bytes ++ after) := by
    simp only [EntryView.encode, header, hbytes, List.append_assoc]
  refine ⟨views, ?_, ?_, ?_, EntryView.iter_items hcount hall hbytes, hcount, hbytes⟩
  · rw [heq, hread, List.length_append, hvalid.length_encode, Nat.add_assoc]
  · intro k hk
    rw [heq, hsplit, ← hheader]
    exact collect_take hall (before ++ header) after hk
  · intro k hk
    have h := collect_take hall [] [] hk
    rwa [List.nil_append, List.append_nil, hbytes, List.length_nil, Nat.zero_add] at h

theorem second_scan_agrees_sample : ∃ it entry, entries (encodeSegment sampleEntries ++ [7]) = .ok it ∧
    (it.items scanEntry)[1]? = some (.ok entry) ∧ entry.numTransactions = 3 ∧
    ∃ views, entry.ScannedTwice (encodeSegment sampleEntries ++ [7]) (it.endOf scanEntry 1) views := by
  obtain ⟨it, hit, hitems⟩ := entries_encodeSegment (by decide) sampleEntries_wellFormed [7]
  have hentry : (it.items scanEntry)[1]? = some (.ok (Entry.view ⟨2, List.replicate 32 9,
      [.legacyOrV0 emptyTx, .legacyOrV0 lookupTx, .v1 configTx]⟩)) := by
    rw [hitems]
    rfl
  exact ⟨it, _, hit, hentry, rfl, second_scan_agrees hit hentry⟩

end Deshred
