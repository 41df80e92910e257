import Deshred.Lib.Consume
import Deshred.Entries

/-!
# Counts and the bytes behind them

Entry counts, transaction counts and shortvec lengths are taken from the segment and may
claim anything. Each round of each loop consumes bytes or fails, so what was found is
paid for with bytes of the segment.
-/

namespace Deshred
open Scanner View

/-! ### The least size of what is scanned -/

/-- At least `k` bytes for each find. -/
abbrev Costs {α : Type} (k : ℕ) (p : Scan α) : Prop := Consumes (fun _ => k) p

theorem costs_u8 : Costs 1 u8 := Consumes.map (Consumes.take 1)

theorem costs_u64 : Costs 8 u64 := Consumes.map (Consumes.take 8)

theorem costs_u32 : Costs 4 u32 := Consumes.map (Consumes.take 4)

theorem costs_shortvecFrom (start shift value : ℕ) (shifts : List ℕ) :
    Costs 1 (shortvecFrom start (shift :: shifts) value) := by
  induction shifts generalizing shift value with
  | nil =>
    apply costs_u8.bind
    intro byte
    dsimp only
    split
    · exact Consumes.pure rfl
    · exact Consumes.fail _
  | cons next shifts ih =>
    apply costs_u8.bind
    intro byte
    dsimp only
    split
    · exact Consumes.pure rfl
    · exact (ih next _).mono fun _ => Nat.zero_le 1

theorem costs_shortvecLen : Costs 1 shortvecLen := by
  apply Consumes.offset.bind
  intro start
  exact costs_shortvecFrom start 0 0 _

/- Two byte strings with their lengths, as at the end of instructions and lookups. -/
theorem costs_twoBytes : Costs 2 (shortvecLen >>= fun n => View.take n >>= fun _ =>
    shortvecLen >>= fun m => View.take m >>= fun _ => (pure () : Scan Unit)) := by
  apply costs_shortvecLen.bind
  intro n
  apply (Consumes.take n).skip
  intro _
  apply costs_shortvecLen.bind
  intro m
  apply (Consumes.take m).skip
  intro _
  exact Consumes.pure rfl

theorem costs_scanInstruction : Costs 3 scanInstruction := by
  apply costs_u8.bind
  intro _
  exact costs_twoBytes

theorem costs_scanLookup : Costs 34 scanLookup := by
  apply (Consumes.take 32).bind
  intro _
  exact costs_twoBytes

/- Header, number of keys, blockhash, number of instructions; the rest may be empty. -/
theorem costs_scanMessage (version : TxVersion) : Costs 37 (scanMessage version) := by
  apply (Consumes.take 3).bind
  intro _
  apply costs_shortvecLen.bind
  intro numKeys
  apply (Consumes.take _).skip
  intro _
  apply (Consumes.take 32).bind
  intro _
  apply costs_shortvecLen.bind
  intro numInstructions
  apply (costs_scanInstruction.repeatN numInstructions).skip
  intro _
  split
  · apply costs_shortvecLen.skip
    intro numLookups
    exact (costs_scanLookup.repeatN numLookups).mono fun _ => Nat.zero_le _
  · exact Consumes.pure rfl

theorem costs_scanVersion (messageFirst : UInt8) : Costs 0 (scanVersion messageFirst) := by
  unfold scanVersion
  split
  · exact Consumes.pure rfl
  · split
    · apply costs_u8.skip
      intro _
      exact Consumes.pure rfl
    · exact Consumes.fail _

theorem costs_scanLegacyOrV0 (start : ℕ) : Costs 38 (scanLegacyOrV0 start) := by
  apply costs_shortvecLen.bind
  intro numSignatures
  apply Consumes.offset.skip
  intro here
  apply (Consumes.take _).skip
  intro _
  apply Consumes.peek.skip
  intro messageFirst
  apply (costs_scanVersion messageFirst).skip
  intro version
  apply (costs_scanMessage version).bind
  intro _
  apply (Consumes.spanFrom start).skip
  intro bytes
  exact Consumes.pure rfl

/- Version byte, header, mask, lifetime specifier and the two counts. -/
theorem costs_scanV1 (start : ℕ) : Costs 42 (scanV1 start) := by
  apply costs_u8.bind
  intro _
  apply costs_u8.bind
  intro numSignatures
  apply (Consumes.take 2).bind
  intro _
  apply costs_u32.bind
  intro mask
  split
  · exact Consumes.fail _
  · apply (Consumes.take 32).bind
    intro _
    apply costs_u8.bind
    intro numInstructions
    apply costs_u8.bind
    intro numKeys
    apply (Consumes.take _).skip
    intro _
    apply (Consumes.take _).skip
    intro _
    apply (Consumes.chunks 4 _).skip
    intro headers
    apply (Consumes.take _).skip
    intro _
    apply Consumes.offset.skip
    intro here
    apply (Consumes.take _).skip
    intro _
    apply (Consumes.spanFrom start).skip
    intro bytes
    exact Consumes.pure rfl

theorem costs_scanTransaction : Costs 38 scanTransaction := by
  apply Consumes.offset.skip
  intro start
  apply Consumes.peek.skip
  intro first
  split
  · exact costs_scanLegacyOrV0 start
  · split
    · exact (costs_scanV1 start).mono fun _ => by decide
    · exact Consumes.fail _

example : (LegacyTx.encode emptyTx).length = 38 := by decide

/- The same scan where only its effect on the cursor counts, as in a loop. -/
theorem Costs.effect {α : Type} {k : ℕ} {p : Scan α} (hp : Costs k p) : Costs k ((fun _ => ()) <$> p) :=
  Consumes.map hp

/-- An entry pays for its own header and for each transaction it counts. -/
def EntryView.cost (entry : EntryView) : ℕ := 48 + 38 * entry.numTransactions

theorem consumes_scanEntry : Consumes EntryView.cost scanEntry := by
  apply costs_u64.bind
  intro numHashes
  apply (Consumes.take 32).bind
  intro hash
  apply costs_u64.bind
  intro numTransactions
  apply Consumes.offset.skip
  intro start
  apply (costs_scanTransaction.effect.repeatN numTransactions).bind
  intro _
  apply (Consumes.spanFrom start).skip
  intro transactions
  apply Consumes.pure
  simp only [EntryView.cost]
  omega

theorem costs_scanEntry : Costs 48 scanEntry :=
  consumes_scanEntry.mono fun entry => Nat.le_add_right 48 (38 * entry.numTransactions)

/-! ### What a segment can hold -/

theorem View.Iter.takeN_eq_take {α : Type} (scan : Scan α) (n : ℕ) (it : Iter) :
    it.takeN scan n = (it.items scan).take n := by
  induction n generalizing it with
  | zero => rw [List.take_zero, Iter.takeN]
  | succ n ih =>
    rw [Iter.takeN, Iter.items_next]
    cases it.next scan with
    | none => rw [List.take_nil]
    | some r =>
      obtain ⟨item, it'⟩ := r
      dsimp only
      rw [ih it', List.take_succ_cons]

theorem sum_cost (views : List EntryView) :
    (views.map EntryView.cost).sum = 48 * views.length + 38 * (views.map fun entry => entry.numTransactions).sum := by
  induction views with
  | nil => rfl
  | cons entry views ih =>
    simp only [List.map_cons, List.sum_cons, List.length_cons, EntryView.cost, ih]
    omega

/-- A loop over `body` makes no more successful rounds on the segment than it has bytes,
wherever the loop starts and whatever ends it. -/
def RoundsBounded (segment : Bytes) (body : Scan Unit) : Prop := ∀ rounds c c',
  c.bytes = segment → (repeatN body rounds).run c = .ok ((), c') → rounds ≤ segment.length

theorem Costs.roundsBounded {k : ℕ} {body : Scan Unit} (hbody : Costs k body) (hk : 0 < k) (segment : Bytes) :
    RoundsBounded segment body := by
  intro rounds c c' hbytes h
  have hle := Consumes.rounds_le hbody hk h
  rwa [hbytes] at hle

/-- What the counts of a segment may claim, and what the bytes allow. -/
structure CountsBounded (segment : Bytes) : Prop where
  transaction : ∀ c v c', c.bytes = segment → scanTransaction.run c = .ok (v, c') →
    c'.bytes = segment ∧ c.offset + 38 ≤ c'.offset ∧ c'.offset ≤ segment.length
  /- However often `next` is called, it yields the views, at most one error and nothing else. -/
  entries : ∀ it, View.entries segment = .ok it → ∃ (views : List EntryView) (errs : List ViewError),
    (∀ calls, it.takeN scanEntry calls = (views.map Except.ok ++ errs.map Except.error).take calls) ∧ errs.length ≤ 1 ∧
      8 + 48 * views.length + 38 * (views.map fun entry => entry.numTransactions).sum ≤ segment.length
  /- The transactions an entry counts are there. -/
  transactions : ∀ it entry, View.entries segment = .ok it → .ok entry ∈ it.items scanEntry →
    ∃ txs : List TxView, entry.iter.items scanTransaction = txs.map .ok ∧ txs.length = entry.numTransactions ∧
      txs.length ≤ segment.length
  entryLoop : RoundsBounded segment ((fun _ => ()) <$> scanEntry)
  transactionLoop : RoundsBounded segment ((fun _ => ()) <$> scanTransaction)
  instructionLoop : RoundsBounded segment scanInstruction
  lookupLoop : RoundsBounded segment scanLookup
  /- The loop of `shortvec_len` reads a byte in each round. -/
  shortvecLoop : RoundsBounded segment ((fun _ => ()) <$> u8)
  /- The sum over the instruction headers of a v1 transaction. -/
  headerLoop : ∀ n c headers c', c.bytes = segment → (View.chunks 4 n).run c = .ok (headers, c') →
    headers.length ≤ segment.length

theorem scanTransaction_moves {c c' : Cursor UInt8} {v : TxView} (h : scanTransaction.run c = .ok (v, c')) :
    c'.bytes = c.bytes ∧ c.offset + 38 ≤ c'.offset ∧ c'.offset ≤ c.bytes.length := by
  obtain ⟨hbytes, hmove, hin⟩ := costs_scanTransaction c v c' h
  -- a scan that starts behind the last byte has no first byte to look at
  obtain ⟨start, c₁, hstart, h⟩ := run_bind_ok.mp h
  cases hstart
  obtain ⟨first, c₂, hpeek, _⟩ := run_bind_ok.mp h
  obtain ⟨rfl, hfirst⟩ := run_peek_ok.mp hpeek
  obtain ⟨hlt, _⟩ := List.getElem?_eq_some_iff.mp hfirst
  exact ⟨hbytes, hmove, by omega⟩

theorem claimed_counts_bounded (segment : Bytes) : CountsBounded segment where
  transaction := by
    rintro c v c' rfl h
    exact scanTransaction_moves h
  entries := by
    intro it hit
    obtain ⟨n, rest, _, rfl, rfl⟩ := entries_ok hit
    have hstart : (leBytes 8 n).length ≤ (leBytes 8 n ++ rest).length := by
      rw [List.length_append]
      exact Nat.le_add_right _ _
    obtain ⟨views, errs, hscan, hone, hsum⟩ := consumes_scanEntry.scanAll n
      ⟨leBytes 8 n ++ rest, (leBytes 8 n).length⟩ hstart
    refine ⟨views, errs, fun calls => ?_, hone, ?_⟩
    · rw [Iter.takeN_eq_take, Iter.items_eq_scanAll, hscan]
    · rw [sum_cost, leBytes_length] at hsum
      dsimp only at hsum
      omega
  transactions := by
    intro it entry hit hentry
    obtain ⟨n, rest, _, rfl, rfl⟩ := entries_ok hit
    rw [Iter.items_eq_scanAll] at hentry
    obtain ⟨hvalid, before, after, heq, _⟩ := codec_scanEntry.mem_scanAll hentry
    obtain ⟨txs, ⟨hcount, hall⟩, hbytes⟩ := hvalid.transactions
    have hle := consumes_scanEntry.le_length (codec_scanEntry.reads entry hvalid before after)
    rw [← heq, EntryView.cost] at hle
    dsimp only at hle
    exact ⟨txs, EntryView.iter_items hcount hall hbytes, hcount, by omega⟩
  entryLoop := costs_scanEntry.effect.roundsBounded (by decide) segment
  transactionLoop := costs_scanTransaction.effect.roundsBounded (by decide) segment
  instructionLoop := costs_scanInstruction.roundsBounded (by decide) segment
  lookupLoop := costs_scanLookup.roundsBounded (by decide) segment
  shortvecLoop := costs_u8.effect.roundsBounded (by decide) segment
  headerLoop := by
    rintro n c headers c' rfl h
    have hle := (Consumes.chunks 4 n).le_length h
    obtain ⟨taken, _, rfl⟩ := run_map_ok.mp h
    rw [List.length_splitLengths, List.length_replicate]
    omega

end Deshred
