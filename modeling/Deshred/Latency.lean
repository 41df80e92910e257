import Deshred.Lib.Tally
import Deshred.Degraded
import Deshred.Emission
import Deshred.Ledger

/-!
# Transaction latency (bin/analyze-recovery.rs)

A capture is replayed twice, with recovery and without. Each replay notes for every batch
when it came out and how many transactions it has; the report compares the two tables.
The additions on times wrap, as in a release build.
-/

namespace Deshred
variable {E : Type}
open Fixture

/-- `BatchTimes`: time and transactions, by slot and first shred index. -/
abbrev BatchTimes := Tally.Table (ℕ × ℕ) (UInt64 × UInt64)

def recoveryCostUs : UInt64 := 46

def Config.default : Config := ⟨none, 64, true⟩

namespace EntryBatch

def numTransactions (wincode : Wincode E) (b : EntryBatch E) : ℕ := (b.entries.map wincode.transactions).sum

end EntryBatch

/-- The variables of the loop in `batch_times`. -/
structure BatchClock where
  deshredder : Deshredder
  recoveries : UInt64
  times : BatchTimes

namespace BatchClock

def start (config : Config) (rs : ReedSolomon) : BatchClock where
  deshredder := .new config rs
  recoveries := 0
  times := ∅

/- `times.insert` for each batch that came out. -/
def note (wincode : Wincode E) (time : UInt64) (times : BatchTimes) (out : List (EntryBatch E)) : BatchTimes :=
  out.foldl (fun times b => times.insert b.key (time, UInt64.ofNat (b.numTransactions wincode))) times

variable [Hasher]

/-- The body of the loop. -/
def record (wincode : Wincode E) (clock : BatchClock) (r : Record) : Except Panic BatchClock :=
  match clock.deshredder.push wincode r.packet with
  | .error p => .error p
  | .ok (d, out) =>
    let cost := if clock.recoveries < d.stats.recovered then recoveryCostUs * 1000 else 0
    .ok ⟨d, d.stats.recovered, note wincode (r.unixNanos + cost) clock.times out⟩

/- The first record that cannot be read ends the loop with its error. -/
def recordAll (wincode : Wincode E) (clock : BatchClock) :
    List (Except Fixture.Error Record) → Except Panic (Except Fixture.Error BatchClock)
  | [] => .ok (.ok clock)
  | .error e :: _ => .ok (.error e)
  | .ok r :: rest =>
    match clock.record wincode r with
    | .error p => .error p
    | .ok clock => recordAll wincode clock rest

end BatchClock

def batchTimes [Hasher] (wincode : Wincode E) (rs : ReedSolomon) (reader : Reader) (recover : Bool) :
    Except Panic (Except Fixture.Error BatchTimes) :=
  match (BatchClock.start { Config.default with recover := recover } rs).recordAll wincode reader.items with
  | .error p => .error p
  | .ok (.error e) => .ok (.error e)
  | .ok (.ok clock) => .ok (.ok clock.times)

/-- The sums of `transaction_latency`. -/
structure Latency where
  total : UInt64
  ties : UInt64
  onlyWithRecovery : UInt64
  deltas : List ℕ

namespace Latency

def zero : Latency := ⟨0, 0, 0, []⟩

/- One entry of the eager table. -/
def add (waiting : BatchTimes) (sums : Latency) (e : (_ : ℕ × ℕ) × (UInt64 × UInt64)) : Latency :=
  let sums := { sums with total := sums.total + e.2.2 }
  match waiting.lookup e.1 with
  | some (waitingAt, _) =>
    let delta := (waitingAt.toNat - e.2.1.toNat) / 1000
    if delta = 0 then { sums with ties := sums.ties + e.2.2 }
    else { sums with deltas := sums.deltas ++ List.replicate e.2.2.toNat delta }
  | none => { sums with onlyWithRecovery := sums.onlyWithRecovery + e.2.2 }

end Latency

/-- `transaction_latency`, with the eager table in some order of its entries. -/
def transactionLatency (eager : List ((_ : ℕ × ℕ) × (UInt64 × UInt64))) (waiting : BatchTimes) : Latency :=
  eager.foldl (Latency.add waiting) .zero

/-! ### The tables -/

/- A batch that has come out, with its time, as an entry of the table. -/
def tableEntry (wincode : Wincode E) (x : EntryBatch E × UInt64) : (ℕ × ℕ) × (UInt64 × UInt64) :=
  (x.1.key, (x.2, UInt64.ofNat (x.1.numTransactions wincode)))

theorem BatchClock.note_eq (wincode : Wincode E) (time : UInt64) (times : BatchTimes) (out : List (EntryBatch E)) :
    note wincode time times out = Tally.insertAll times ((out.map fun b => (b, time)).map (tableEntry wincode)) := by
  rw [note, Tally.insertAll, List.map_map, List.foldl_map]
  rfl

section
variable [Hasher] {wincode : Wincode E} {config : Config} {rs : ReedSolomon} {records : List Record} {clock clock' : BatchClock}
  {out : List (EntryBatch E)}

/-- The batch came out with one of the records, at its time, or at that and the cost of
a recovery. -/
structure CameOutWith (wincode : Wincode E) (config : Config) (rs : ReedSolomon) (before : List Record) (r : Record)
    (b : EntryBatch E) (time : UInt64) : Prop where
  pushed : ∃ d out d' out', Deshredder.pushEach wincode (.new config rs) (before.map Record.packet) = .ok (d, out) ∧
    d.push wincode r.packet = .ok (d', out') ∧ b ∈ out'
  time : time = r.unixNanos ∨ time = r.unixNanos + recoveryCostUs * 1000

/-- The loop after some records. -/
structure Clocked (wincode : Wincode E) (config : Config) (rs : ReedSolomon) (records : List Record) (clock : BatchClock)
    (out : List (EntryBatch E)) : Prop where
  run : Deshredder.pushEach wincode (.new config rs) (records.map Record.packet) = .ok (clock.deshredder, out)
  times : ∃ stamped : List (EntryBatch E × UInt64), stamped.map Prod.fst = out ∧
    clock.times = Tally.insertAll ∅ (stamped.map (tableEntry wincode)) ∧
    ∀ x ∈ stamped, ∃ before r after, records = before ++ r :: after ∧ CameOutWith wincode config rs before r x.1 x.2

theorem Clocked.start (wincode : Wincode E) (config : Config) (rs : ReedSolomon) :
    Clocked wincode config rs [] (BatchClock.start config rs) [] where
  run := rfl
  times := ⟨[], rfl, rfl, by simp⟩

theorem Clocked.record {r : Record} (h : Clocked wincode config rs records clock out)
    (hok : clock.record wincode r = .ok clock') : ∃ out', Clocked wincode config rs (records ++ [r]) clock' (out ++ out') := by
  unfold BatchClock.record at hok
  split at hok
  · contradiction
  · rename_i d out' hpush
    cases hok
    obtain ⟨stamped, hout, htimes, hcame⟩ := h.times
    refine ⟨out', ?_, ?_⟩
    · rw [List.map_append, List.map_singleton]
      exact Steps.runAll_snoc_ok.mpr ⟨_, _, _, h.run, hpush, rfl⟩
    · dsimp only
      generalize hcost : (if clock.recoveries < d.stats.recovered then recoveryCostUs * 1000 else 0) = cost
      have htime : r.unixNanos + cost = r.unixNanos ∨ r.unixNanos + cost = r.unixNanos + recoveryCostUs * 1000 := by
        rw [← hcost]
        split
        · exact .inr rfl
        · exact .inl (UInt64.add_zero _)
      refine ⟨stamped ++ out'.map fun b => (b, r.unixNanos + cost), ?_, ?_, ?_⟩
      · rw [List.map_append, hout, List.map_map]
        simp [Function.comp_def]
      · rw [BatchClock.note_eq, htimes, ← Tally.insertAll_append, List.map_append]
      · intro x hx
        rcases List.mem_append.mp hx with hx | hx
        · obtain ⟨before, r', after, rfl, hx⟩ := hcame x hx
          exact ⟨before, r', after ++ [r], by simp, hx⟩
        · obtain ⟨b, hb, rfl⟩ := List.mem_map.mp hx
          exact ⟨records, r, [], rfl, ⟨_, _, _, _, h.run, hpush, hb⟩, htime⟩

theorem Clocked.recordAll {items : List (Except Fixture.Error Record)} (h : Clocked wincode config rs records clock out)
    (hok : clock.recordAll wincode items = .ok (.ok clock')) : ∃ rest out', items = rest.map .ok ∧
      Clocked wincode config rs (records ++ rest) clock' (out ++ out') := by
  induction items generalizing records clock out with
  | nil =>
    simp only [BatchClock.recordAll, Except.ok.injEq] at hok
    subst hok
    exact ⟨[], [], rfl, by simpa using h⟩
  | cons item items ih =>
    cases item with
    | error e => simp [BatchClock.recordAll] at hok
    | ok r =>
      simp only [BatchClock.recordAll] at hok
      cases hr : clock.record wincode r with
      | error p => simp [hr] at hok
      | ok mid =>
        rw [hr] at hok
        obtain ⟨out₁, hmid⟩ := h.record hr
        obtain ⟨rest, out₂, rfl, hend⟩ := ih hmid hok
        refine ⟨r :: rest, out₁ ++ out₂, rfl, ?_⟩
        simpa using hend

/-- What a table that `batch_times` returns is made of. -/
theorem batchTimes_clocked {reader : Reader} {recover : Bool} {times : BatchTimes}
    (h : batchTimes wincode rs reader recover = .ok (.ok times)) :
    ∃ records clock out, reader.items = records.map .ok ∧ times = clock.times ∧
      Clocked wincode { Config.default with recover := recover } rs records clock out := by
  unfold batchTimes at h
  split at h
  · contradiction
  · cases h
  · rename_i clock hclock
    cases h
    obtain ⟨records, out, hitems, hend⟩ := (Clocked.start wincode _ rs).recordAll hclock
    exact ⟨records, clock, out, hitems, rfl, by simpa using hend⟩

/-! ### No batch is overwritten -/

theorem keys_nodup {d : Deshredder} {packets : List Bytes} (hL : 1 ≤ config.slotLookback)
    (h4 : 4 * config.slotLookback < 2 ^ 64) (hr : ∀ b ∈ packets, Deshredder.InRange config.slotLookback b)
    (h : Deshredder.pushEach wincode (.new config rs) packets = .ok (d, out)) : (out.map EntryBatch.key).Nodup := by
  obtain ⟨d₀, raws, hraws, _, rfl⟩ := Deshredder.pushEach_raws h
  have hE := Deshredder.pushAll_emission hL h4 hr hraws
  refine (decoded_keys wincode raws).nodup ?_
  rw [List.Nodup, List.pairwise_map]
  refine hE.disjoint.imp_of_mem ?_
  intro a b ha hb hdisjoint heq
  obtain ⟨hslot, hstart⟩ := Prod.mk.inj heq
  have hain : a.shreds.1 ∈ Finset.Icc a.shreds.1 a.shreds.2 := Finset.mem_Icc.mpr ⟨le_rfl, hE.nonempty a ha⟩
  have hbin : a.shreds.1 ∈ Finset.Icc b.shreds.1 b.shreds.2 := by
    rw [hstart]
    exact Finset.mem_Icc.mpr ⟨le_rfl, hE.nonempty b hb⟩
  exact Finset.disjoint_left.mp (hdisjoint hslot) hain hbin

end

/-! ### The sums of the report -/

def transactionsIn (entries : List ((_ : ℕ × ℕ) × (UInt64 × UInt64))) : ℕ := (entries.map fun e => e.2.2.toNat).sum

/- What `transaction_latency` has counted after some entries of the eager table. -/
structure Latency.Counts (waiting : BatchTimes) (entries : List ((_ : ℕ × ℕ) × (UInt64 × UInt64))) (sums : Latency) : Prop where
  total : sums.total = UInt64.ofNat (transactionsIn entries)
  both : sums.ties + UInt64.ofNat sums.deltas.length =
    UInt64.ofNat (transactionsIn (entries.filter fun e => (waiting.lookup e.1).isSome))
  alone : sums.onlyWithRecovery =
    UInt64.ofNat (transactionsIn (entries.filter fun e => (waiting.lookup e.1).isNone))
  faster : ∀ delta ∈ sums.deltas, 0 < delta

theorem transactionsIn_snoc (entries : List ((_ : ℕ × ℕ) × (UInt64 × UInt64))) (e : (_ : ℕ × ℕ) × (UInt64 × UInt64)) :
    UInt64.ofNat (transactionsIn (entries ++ [e])) = UInt64.ofNat (transactionsIn entries) + e.2.2 := by
  simp [transactionsIn, UInt64.ofNat_add]

theorem Latency.Counts.add {waiting : BatchTimes} {entries : List ((_ : ℕ × ℕ) × (UInt64 × UInt64))} {sums : Latency}
    (h : Latency.Counts waiting entries sums) (e : (_ : ℕ × ℕ) × (UInt64 × UInt64)) :
    Latency.Counts waiting (entries ++ [e]) (sums.add waiting e) := by
  have htotal : sums.total + e.2.2 = UInt64.ofNat (transactionsIn (entries ++ [e])) := by
    rw [transactionsIn_snoc, h.total]
  unfold Latency.add
  cases hlook : waiting.lookup e.1 with
  | none =>
    have hboth : (entries ++ [e]).filter (fun e => (waiting.lookup e.1).isSome) =
        entries.filter fun e => (waiting.lookup e.1).isSome := by
      simp [List.filter_append, hlook]
    have halone : (entries ++ [e]).filter (fun e => (waiting.lookup e.1).isNone) =
        (entries.filter fun e => (waiting.lookup e.1).isNone) ++ [e] := by
      simp [List.filter_append, hlook]
    refine ⟨htotal, ?_, ?_, h.faster⟩
    · rw [hboth]
      exact h.both
    · rw [halone, transactionsIn_snoc, ← h.alone]
  | some found =>
    have hboth : (entries ++ [e]).filter (fun e => (waiting.lookup e.1).isSome) =
        (entries.filter fun e => (waiting.lookup e.1).isSome) ++ [e] := by
      simp [List.filter_append, hlook]
    have halone : (entries ++ [e]).filter (fun e => (waiting.lookup e.1).isNone) =
        entries.filter fun e => (waiting.lookup e.1).isNone := by
      simp [List.filter_append, hlook]
    dsimp only
    split
    · refine ⟨htotal, ?_, ?_, h.faster⟩
      · rw [hboth, transactionsIn_snoc, ← h.both]
        dsimp only
        grind
      · rw [halone]
        exact h.alone
    · rename_i hdelta
      refine ⟨htotal, ?_, ?_, ?_⟩
      · rw [hboth, transactionsIn_snoc, ← h.both]
        simp only [List.length_append, List.length_replicate, UInt64.ofNat_add, UInt64.ofNat_toNat]
        grind
      · rw [halone]
        exact h.alone
      · intro delta hmem
        rcases List.mem_append.mp hmem with hmem | hmem
        · exact h.faster delta hmem
        · rw [List.eq_of_mem_replicate hmem]
          exact Nat.pos_of_ne_zero hdelta

theorem transactionLatency_counts (entries : List ((_ : ℕ × ℕ) × (UInt64 × UInt64))) (waiting : BatchTimes) :
    Latency.Counts waiting entries (transactionLatency entries waiting) := by
  induction entries using List.reverseRecOn with
  | nil => exact ⟨rfl, rfl, rfl, by simp [transactionLatency, Latency.zero]⟩
  | append_singleton entries e ih =>
    rw [transactionLatency, List.foldl_append]
    exact ih.add e

theorem transactionsIn_split (entries : List ((_ : ℕ × ℕ) × (UInt64 × UInt64))) (waiting : BatchTimes) :
    transactionsIn entries = transactionsIn (entries.filter fun e => (waiting.lookup e.1).isSome) +
      transactionsIn (entries.filter fun e => (waiting.lookup e.1).isNone) := by
  induction entries with
  | nil => rfl
  | cons e entries ih =>
    simp only [transactionsIn] at ih ⊢
    cases hlook : waiting.lookup e.1 with
    | none =>
      simp only [List.filter_cons, hlook, Option.isSome_none, Option.isNone_none, Bool.false_eq_true, ↓reduceIte,
        List.map_cons, List.sum_cons]
      omega
    | some found =>
      simp only [List.filter_cons, hlook, Option.isSome_some, Option.isNone_some, Bool.false_eq_true, ↓reduceIte,
        List.map_cons, List.sum_cons]
      omega

theorem transactionsIn_perm {entries₁ entries₂ : List ((_ : ℕ × ℕ) × (UInt64 × UInt64))} (h : entries₁.Perm entries₂) :
    transactionsIn entries₁ = transactionsIn entries₂ := (h.map _).sum_eq

/-- Everything is in one of the three groups. -/
theorem Latency.Counts.adds_up {waiting : BatchTimes} {entries : List ((_ : ℕ × ℕ) × (UInt64 × UInt64))} {sums : Latency}
    (h : Latency.Counts waiting entries sums) :
    sums.total = sums.ties + UInt64.ofNat sums.deltas.length + sums.onlyWithRecovery := by
  rw [h.total, h.both, h.alone, transactionsIn_split entries waiting, UInt64.ofNat_add]

section
variable [Hasher] {wincode : Wincode E} {config : Config} {rs : ReedSolomon} {records : List Record} {clock : BatchClock}
  {out : List (EntryBatch E)}

omit [Hasher] in
/-- The transactions of some batches, by their entries in the table. -/
theorem transactionsIn_stamped (wincode : Wincode E) (stamped : List (EntryBatch E × UInt64)) :
    UInt64.ofNat (transactionsIn ((stamped.map (tableEntry wincode)).map fun e => ⟨e.1, e.2⟩)) =
      UInt64.ofNat ((stamped.map Prod.fst).map fun b => b.numTransactions wincode).sum := by
  induction stamped with
  | nil => rfl
  | cons x stamped ih =>
    simp only [transactionsIn, List.map_cons, List.sum_cons, UInt64.ofNat_add, tableEntry, UInt64.ofNat_toNat] at ih ⊢
    rw [ih]

/- The table of a loop, entry by entry. -/
structure Tabled (wincode : Wincode E) (clock : BatchClock) (out : List (EntryBatch E))
    (stamped : List (EntryBatch E × UInt64)) : Prop where
  out_eq : stamped.map Prod.fst = out
  perm : clock.times.entries.Perm ((stamped.map (tableEntry wincode)).map fun e => ⟨e.1, e.2⟩)
  lookup : ∀ k v, clock.times.lookup k = some v ↔ (k, v) ∈ stamped.map (tableEntry wincode)

theorem Clocked.tabled (h : Clocked wincode config rs records clock out) (hkeys : (out.map EntryBatch.key).Nodup) :
    ∃ stamped, Tabled wincode clock out stamped ∧ ∀ x ∈ stamped, ∃ before r after, records = before ++ r :: after ∧
      CameOutWith wincode config rs before r x.1 x.2 := by
  obtain ⟨stamped, hout, htimes, hcame⟩ := h.times
  have hnodup : ((stamped.map (tableEntry wincode)).map Prod.fst).Nodup := by
    rw [← hout, List.map_map] at hkeys
    rw [List.map_map]
    exact hkeys
  refine ⟨stamped, ⟨hout, ?_, ?_⟩, hcame⟩
  · rw [htimes]
    exact Tally.entries_perm hnodup
  · intro k v
    rw [htimes]
    exact Tally.lookup_iff hnodup k v

theorem Clocked.transactions (h : Clocked wincode config rs records clock out) :
    clock.deshredder.stats.transactions = UInt64.ofNat (out.map fun b => b.numTransactions wincode).sum := by
  obtain ⟨_, _, _, _, _, hA⟩ := Deshredder.pushEach_accounts h.run
  exact hA.transactions

omit [Hasher] in
theorem Tabled.total {stamped : List (EntryBatch E × UInt64)} (h : Tabled wincode clock out stamped) :
    UInt64.ofNat (transactionsIn clock.times.entries) = UInt64.ofNat (out.map fun b => b.numTransactions wincode).sum := by
  rw [transactionsIn_perm h.perm, transactionsIn_stamped, h.out_eq]

/-- Every record is pushed, so the loop gets to its end. -/
theorem recordAll_returns {packets : List Record} {clock : BatchClock} {d : Deshredder} {out : List (EntryBatch E)}
    (h : Deshredder.pushEach wincode clock.deshredder (packets.map Record.packet) = .ok (d, out)) :
    ∃ clock', clock.recordAll wincode (packets.map .ok) = .ok (.ok clock') := by
  induction packets generalizing clock out with
  | nil => exact ⟨clock, rfl⟩
  | cons r packets ih =>
    obtain ⟨d₁, out₁, outs, hstep, hrest, _⟩ := Steps.runAll_cons_ok.mp h
    have hrecord : ∃ mid, clock.record wincode r = .ok mid ∧ mid.deshredder = d₁ := by
      simp only [BatchClock.record, hstep]
      exact ⟨_, rfl, rfl⟩
    obtain ⟨mid, hmid, rfl⟩ := hrecord
    obtain ⟨clock', hend⟩ := ih hrest
    refine ⟨clock', ?_⟩
    simp only [List.map_cons, BatchClock.recordAll, hmid]
    exact hend

theorem batchTimes_returns {reader : Reader} {recover : Bool} {d : Deshredder} {out : List (EntryBatch E)}
    (hitems : reader.items = records.map .ok)
    (h : Deshredder.pushEach wincode (.new ⟨none, 64, recover⟩ rs) (records.map Record.packet) = .ok (d, out)) :
    ∃ clock, batchTimes wincode rs reader recover = .ok (.ok clock.times) ∧ clock.deshredder = d ∧
      Clocked wincode ⟨none, 64, recover⟩ rs records clock out := by
  have hpushed : Deshredder.pushEach wincode (BatchClock.start ⟨none, 64, recover⟩ rs).deshredder
      (records.map Record.packet) = .ok (d, out) := h
  obtain ⟨clock, hclock⟩ := recordAll_returns hpushed
  obtain ⟨rest, out', hrest, hC⟩ := (Clocked.start wincode ⟨none, 64, recover⟩ rs).recordAll hclock
  have hsame : rest = records := (List.map_injective_iff.mpr (fun _ _ he => Except.ok.inj he) hrest).symm
  rw [List.nil_append, List.nil_append, hsame] at hC
  have hrun := hC.run
  rw [h] at hrun
  simp only [Except.ok.injEq, Prod.mk.injEq] at hrun
  refine ⟨clock, ?_, hrun.1.symm, ?_⟩
  · have hstart : (BatchClock.start { Config.default with recover := recover } rs).recordAll wincode (records.map .ok) =
        .ok (.ok clock) := hclock
    rw [batchTimes, hitems, hstart]
  · rw [hrun.2]
    exact hC

/-- The report counts every transaction that the eager run hands out exactly once, and
its total is the counter of that run, whatever order the table is walked in. -/
theorem report_adds_up (wincode : Wincode E) (rs : ReedSolomon) (reader : Reader) {eager : BatchTimes}
    (h : batchTimes wincode rs reader true = .ok (.ok eager))
    (hr : ∀ r, .ok r ∈ reader.items → Deshredder.InRange 64 r.packet) (waiting : BatchTimes)
    (order : List ((_ : ℕ × ℕ) × (UInt64 × UInt64))) (horder : order.Perm eager.entries) :
    ∃ (records : List Record) (d : Deshredder) (out : List (EntryBatch E)), reader.items = records.map .ok ∧
      Deshredder.pushEach wincode (.new Config.default rs) (records.map Record.packet) = .ok (d, out) ∧
      (order.map Sigma.fst).Perm (out.map EntryBatch.key) ∧
      (transactionLatency order waiting).total = d.stats.transactions ∧
      d.stats.transactions = (transactionLatency order waiting).ties +
        UInt64.ofNat (transactionLatency order waiting).deltas.length + (transactionLatency order waiting).onlyWithRecovery ∧
      ∀ delta ∈ (transactionLatency order waiting).deltas, 0 < delta := by
  obtain ⟨records, clock, out, hitems, rfl, hC⟩ := batchTimes_clocked h
  have hpackets : ∀ b ∈ records.map Record.packet, Deshredder.InRange 64 b := by
    intro b hb
    obtain ⟨r, hmem, rfl⟩ := List.mem_map.mp hb
    exact hr r (by rw [hitems]; exact List.mem_map_of_mem hmem)
  obtain ⟨stamped, hT, _⟩ := hC.tabled (keys_nodup (by decide) (by decide) hpackets hC.run)
  have hcounts := transactionLatency_counts order waiting
  have htotal : (transactionLatency order waiting).total = clock.deshredder.stats.transactions := by
    rw [hcounts.total, transactionsIn_perm horder, hT.total, hC.transactions]
  refine ⟨records, clock.deshredder, out, hitems, hC.run, ?_, htotal, ?_, hcounts.faster⟩
  · refine ((horder.trans hT.perm).map _).trans ?_
    rw [← hT.out_eq]
    simp only [List.map_map]
    exact List.Perm.refl _
  · rw [← htotal]
    exact hcounts.adds_up

/-! #### Captures of leader blocks -/

variable {blocks : ℕ → Block} {Codeword : List Bytes → Prop} {version a : ℕ}

/- A capture of leader shreds of slots that lie close together. -/
structure FromBlocks (blocks : ℕ → Block) (Codeword : List Bytes → Prop) (rs : ReedSolomon) (version a : ℕ)
    (packets : List Bytes) : Prop where
  range : a + 128 < 2 ^ 64
  consistent : ∀ t, (blocks t).Consistent Codeword t version
  rebuilds : rs.Rebuilds Codeword
  sent : ∀ b ∈ packets, ∃ x, Deshredder.FromLeader blocks a 64 b x

theorem FromBlocks.front {packets more : List Bytes} (h : FromBlocks blocks Codeword rs version a (packets ++ more)) :
    FromBlocks blocks Codeword rs version a packets :=
  ⟨h.range, h.consistent, h.rebuilds, fun b hb => h.sent b (List.mem_append_left _ hb)⟩

theorem FromBlocks.inRange {packets : List Bytes} (h : FromBlocks blocks Codeword rs version a packets) :
    ∀ p ∈ packets, Deshredder.InRange 64 p := by
  intro p hp x hx
  obtain ⟨y, hy⟩ := h.sent p hp
  rw [Except.ok.inj (hx.symm.trans hy.parsed)]
  have hnear := hy.near
  have ha := h.range
  omega

/-! #### A sample capture -/

def sampleRecord (time : UInt64) (place : Fin 1024 × Position) : Record := ⟨time, samplePacket place⟩

/- The code shreds of the first set, and much later its first data shred. -/
def lateCapture : List Record :=
  (firstCodes (List.finRange 32)).map (sampleRecord 5) ++ [sampleRecord 60000 (0, .data 0)]

omit [Hasher] in
def latePlaces : List (Fin 1024 × Position) := firstCodes (List.finRange 32) ++ [(0, .data 0)]

theorem lateCapture_packets : lateCapture.map Record.packet = latePlaces.map samplePacket := by
  rw [lateCapture, latePlaces, List.map_append, List.map_append, List.map_map]
  rfl

theorem lateCapture_mem {r : Record} (h : r ∈ lateCapture) :
    (r.unixNanos = 5 ∨ r.unixNanos = 60000) ∧ ∃ place ∈ latePlaces, r.packet = samplePacket place := by
  rcases List.mem_append.mp h with h | h
  · obtain ⟨place, hp, rfl⟩ := List.mem_map.mp h
    exact ⟨.inl rfl, place, List.mem_append_left _ hp, rfl⟩
  · rw [List.mem_singleton.mp h]
    exact ⟨.inr rfl, _, List.mem_append_right _ (List.mem_singleton_self _), rfl⟩

theorem lateCapture_items : Reader.items ⟨lateCapture.flatMap Record.encode⟩ = lateCapture.map .ok := by
  apply items_whole
  intro r hr
  obtain ⟨_, place, _, hpacket⟩ := lateCapture_mem hr
  show r.packet.length < 2 ^ 16
  rw [hpacket]
  exact (Deshredder.carriedPacket_length sampleSlot_lt sampleRun_fits place).trans_lt (by decide)

omit [Hasher] in
theorem latePlaces_sets : ∀ a ∈ latePlaces, a.1 = 0 ∨ a.1 = 1 := by
  intro a ha
  rcases List.mem_append.mp ha with ha | ha
  · exact firstCodes_sets _ a ha
  · rw [List.mem_singleton.mp ha]
    exact .inl rfl

/-- With recovery the whole set is there, without it the one data shred. -/
theorem latePlaces_available (recover : Bool) (i : ℕ) : (carriedBlock sampleSlot_lt sampleRun_fits).Available recover
    (Deshredder.arrivals (latePlaces.map samplePacket) 7) i ↔ i < if recover then 32 else 1 := by
  have hA : ArrivedAt latePlaces (Deshredder.arrivals (latePlaces.map samplePacket) 7) :=
    Deshredder.arrivedAt_arrivals sampleSlot_lt sampleRun_fits latePlaces
  generalize Deshredder.arrivals (latePlaces.map samplePacket) 7 = A at hA
  have hfull : 32 ≤ (A 0).card := all_codes_card fun p =>
    (hA 0 (.code p)).mpr (List.mem_append_left _ (mem_firstCodes.mpr ⟨rfl, p, List.mem_finRange p, rfl⟩))
  have hdata : Position.data (Block.place i) ∈ A 0 ↔ i % 32 = 0 := by
    refine (hA 0 _).trans ?_
    rw [latePlaces, List.mem_append, mem_firstCodes]
    simp [Block.place, Fin.ext_iff]
  have hone : A 32 = ∅ := by
    ext q
    refine (hA 1 q).trans ?_
    rw [latePlaces, List.mem_append, mem_firstCodes]
    simp
  rw [carried_available_iff, hone]
  simp only [Present, hfull, hdata, Finset.notMem_empty, Finset.card_empty]
  cases recover with
  | true =>
    simp
  | false =>
    simp
    omega

/-- Both replays of it, with what they hand out. -/
theorem lateCapture_replays (recover : Bool) : ∃ d out,
    Deshredder.pushEach layoutDecoder (.new ⟨none, 64, recover⟩ sampleRs) (lateCapture.map Record.packet) = .ok (d, out) ∧
      out.Perm ((List.range (if recover then 32 else 1)).map sampleBatch) ∧
      d.stats.transactions = if recover then 32 else 1 := by
  rw [lateCapture_packets]
  obtain ⟨d, out, hrun, hperm⟩ := Deshredder.pushEach_sample recover latePlaces_sets (latePlaces_available recover)
    (by cases recover <;> decide)
  obtain ⟨_, _, _, _, _, hA⟩ := Deshredder.pushEach_accounts hrun
  refine ⟨d, out, hrun, hperm, ?_⟩
  rw [hA.transactions, (hperm.map _).sum_eq, List.map_map]
  cases recover with
  | true => rfl
  | false => rfl

theorem lateCapture_fromBlocks :
    FromBlocks sampleBlocks (CarriedCodeword 7 (encodeSegment sampleRun)) sampleRs 0 7 (lateCapture.map Record.packet) where
  range := by decide
  consistent := Deshredder.carriedBlocks_consistent sampleSlot_lt sampleRun_fits
  rebuilds := carriedRs_rebuilds 7 _
  sent := by
    intro b hb
    obtain ⟨r, hr, rfl⟩ := List.mem_map.mp hb
    obtain ⟨_, place, hplace, hpacket⟩ := lateCapture_mem hr
    rw [hpacket]
    exact ⟨_, Deshredder.carriedPacket_fromLeader sampleSlot_lt sampleRun_fits (latePlaces_sets place hplace) 64⟩

omit [Hasher] in
/-- The sample capture has 32 batches with recovery, of one transaction each. -/
theorem report_adds_up_late_capture :
    let : Hasher := sha256Hasher
    ∃ eager : BatchTimes,
      batchTimes layoutDecoder sampleRs ⟨lateCapture.flatMap Record.encode⟩ true = .ok (.ok eager) ∧
      (eager.entries.map Sigma.fst).Perm ((List.range 32).map fun i => (7, i)) ∧
      (transactionLatency eager.entries.reverse ∅).total = 32 := by
  let : Hasher := sha256Hasher
  intro _
  obtain ⟨d, out, hrun, hperm, htxs⟩ := lateCapture_replays true
  obtain ⟨clock, htimes, _⟩ := batchTimes_returns lateCapture_items hrun
  obtain ⟨records, d₁, out₁, hitems, hrun₁, hkeys, htotal, _⟩ := report_adds_up layoutDecoder sampleRs _ htimes
    (fun r hr => by
      rw [lateCapture_items] at hr
      obtain ⟨r', hr', heq⟩ := List.mem_map.mp hr
      rw [← Except.ok.inj heq]
      exact lateCapture_fromBlocks.inRange _ (List.mem_map_of_mem hr')) ∅ _ (List.reverse_perm _)
  have hrecords : records = lateCapture :=
    (List.map_injective_iff.mpr (fun _ _ he => Except.ok.inj he) (lateCapture_items.symm.trans hitems)).symm
  rw [hrecords] at hrun₁
  have hsame := hrun.symm.trans hrun₁
  simp only [Except.ok.injEq, Prod.mk.injEq] at hsame
  rw [← hsame.2] at hkeys
  rw [← hsame.1, htxs] at htotal
  refine ⟨_, htimes, ?_, htotal⟩
  refine (((List.reverse_perm _).symm.map _).trans hkeys).trans ((hperm.map _).trans ?_)
  rw [List.map_map]
  exact List.Perm.refl _

/-! ### What recovery gains on leader blocks -/

variable {clock₀ clock₁ : BatchClock} {out₀ out₁ : List (EntryBatch E)}

omit [Hasher] in
theorem Block.Delivered.with_recovery {B : Block} {A : ℕ → Finset Position} {s e : ℕ} (h : B.Delivered false A s e)
    (recover : Bool) : B.Delivered recover A s e := by
  refine h.imp fun i hi => ⟨hi.1, .inl ?_⟩
  rcases hi.2 with hp | ⟨hf, _⟩
  · exact hp
  · contradiction

/-- Both runs return, and the eager one hands out what the other does. -/
theorem FromBlocks.both {packets : List Bytes} (h : FromBlocks blocks Codeword rs version a packets) (wincode : Wincode E) :
    ∃ d₀ out₀ d₁ out₁, Deshredder.pushEach wincode (.new ⟨none, 64, false⟩ rs) packets = .ok (d₀, out₀) ∧
      Deshredder.pushEach wincode (.new ⟨none, 64, true⟩ rs) packets = .ok (d₁, out₁) ∧ out₀ ⊆ out₁ := by
  have hdeliver : ∀ recover, ∃ d raws, (Deshredder.new ⟨none, 64, recover⟩ rs).pushAll packets = .ok (d, raws) ∧
      Deshredder.Delivering blocks ⟨none, 64, recover⟩ rs a packets d raws := fun recover =>
    Deshredder.pushAll_delivering packets (show 1 ≤ 64 by decide) (show 4 * 64 < 2 ^ 64 by decide) h.range h.consistent (.inl rfl) h.rebuilds h.sent
  obtain ⟨d₀, raws₀, hrun₀, hD₀⟩ := hdeliver false
  obtain ⟨d₁, raws₁, hrun₁, hD₁⟩ := hdeliver true
  have hsub : raws₀ ⊆ raws₁ := by
    intro b hb
    obtain ⟨hrunb, heq⟩ := (hD₀.mem_out b).mp hb
    refine (hD₁.mem_out b).mpr ⟨?_, heq⟩
    rw [(hD₁.tracks b.slot).run_iff (hD₁.slots.slotState b.slot).toAssembling]
    rw [(hD₀.tracks b.slot).run_iff (hD₀.slots.slotState b.slot).toAssembling] at hrunb
    exact hrunb.with_recovery true
  obtain ⟨d₀', heach₀, _⟩ := Deshredder.pushEach_follows wincode ⟨rfl, rfl, rfl, rfl⟩ hrun₀
  obtain ⟨d₁', heach₁, _⟩ := Deshredder.pushEach_follows wincode ⟨rfl, rfl, rfl, rfl⟩ hrun₁
  refine ⟨d₀', _, d₁', _, heach₀, heach₁, ?_⟩
  intro b hb
  obtain ⟨raw, hraw, hb⟩ := List.mem_flatMap.mp hb
  exact List.mem_flatMap.mpr ⟨raw, hsub hraw, hb⟩

theorem pushEach_extends {d : Deshredder} {packets more : List Bytes} {d' : Deshredder} {out' : List (EntryBatch E)}
    (h : Deshredder.pushEach wincode (.new config rs) packets = .ok (d, out))
    (h' : Deshredder.pushEach wincode (.new config rs) (packets ++ more) = .ok (d', out')) : out ⊆ out' := by
  obtain ⟨d₁, out₁, outs, hrun, _, rfl⟩ := Steps.runAll_append_ok.mp h'
  have hsame := h.symm.trans hrun
  simp only [Except.ok.injEq, Prod.mk.injEq] at hsame
  rw [hsame.2]
  exact List.subset_append_left _ _

omit [Hasher] in
theorem map_packet_snoc (before : List Record) (r : Record) :
    (before ++ [r]).map Record.packet = before.map Record.packet ++ [r.packet] := by
  rw [List.map_append, List.map_singleton]

/-- What the waiting run has handed out after a record, the eager run has too. -/
theorem CameOutWith.ahead {before : List Record} {r : Record} {b : EntryBatch E} {time : UInt64}
    (hcame : CameOutWith wincode ⟨none, 64, false⟩ rs before r b time)
    (hB : FromBlocks blocks Codeword rs version a ((before ++ [r]).map Record.packet)) :
    ∃ d out, Deshredder.pushEach wincode (.new ⟨none, 64, true⟩ rs) ((before ++ [r]).map Record.packet) = .ok (d, out) ∧
      b ∈ out := by
  obtain ⟨d₀, o₀, d₀', o₀', hrun₀, hpush₀, hb₀⟩ := hcame.pushed
  obtain ⟨d, o, e, o', hw, he, hsub⟩ := hB.both wincode
  refine ⟨e, o', he, hsub ?_⟩
  rw [map_packet_snoc] at hw
  have hsame := hw.symm.trans (Steps.runAll_snoc_ok.mpr ⟨_, _, _, hrun₀, hpush₀, rfl⟩)
  simp only [Except.ok.injEq, Prod.mk.injEq] at hsame
  rw [hsame.2]
  exact List.mem_append_right _ hb₀

/-- A batch that is out does not come out again. -/
theorem CameOutWith.once {packets : List Bytes} {before : List Record} {mid : List Bytes} {r : Record} {b : EntryBatch E}
    {time : UInt64} {d : Deshredder} (hcame : CameOutWith wincode ⟨none, 64, true⟩ rs before r b time)
    (hB : FromBlocks blocks Codeword rs version a ((before ++ [r]).map Record.packet))
    (hbefore : before.map Record.packet = packets ++ mid)
    (hrun : Deshredder.pushEach wincode (.new ⟨none, 64, true⟩ rs) packets = .ok (d, out)) : b ∉ out := by
  intro hb
  obtain ⟨d₁, o₁, d₁', o₁', hrun₁, hpush₁, hb₁⟩ := hcame.pushed
  have htotal : Deshredder.pushEach wincode (.new ⟨none, 64, true⟩ rs) ((before ++ [r]).map Record.packet) =
      .ok (d₁', o₁ ++ o₁') := by
    rw [map_packet_snoc]
    exact Steps.runAll_snoc_ok.mpr ⟨_, _, _, hrun₁, hpush₁, rfl⟩
  rw [hbefore] at hrun₁
  have hnodup := keys_nodup (by decide) (by decide) hB.inRange htotal
  rw [List.map_append] at hnodup
  exact List.disjoint_of_nodup_append hnodup (List.mem_map_of_mem (pushEach_extends hrun hrun₁ hb)) (List.mem_map_of_mem hb₁)

/-- A batch that both runs hand out comes out of the eager one with the same record or
before. -/
theorem came_no_later {before₀ before₁ after₀ after₁ : List Record} {r₀ r₁ : Record} {b : EntryBatch E} {time₀ time₁ : UInt64}
    (h₀ : records = before₀ ++ r₀ :: after₀) (h₁ : records = before₁ ++ r₁ :: after₁)
    (hB : FromBlocks blocks Codeword rs version a (records.map Record.packet))
    (hsorted : records.Pairwise fun r r' => r.unixNanos ≤ r'.unixNanos)
    (hcame₀ : CameOutWith wincode ⟨none, 64, false⟩ rs before₀ r₀ b time₀)
    (hcame₁ : CameOutWith wincode ⟨none, 64, true⟩ rs before₁ r₁ b time₁) : r₁.unixNanos ≤ r₀.unixNanos := by
  have hfront : ∀ before r after, records = before ++ r :: after →
      FromBlocks blocks Codeword rs version a ((before ++ [r]).map Record.packet) := by
    intro before r after h
    rw [h, ← List.singleton_append, ← List.append_assoc, List.map_append] at hB
    exact hB.front
  rcases List.append_eq_append_iff.mp (h₀.symm.trans h₁) with ⟨mid, hbefore, hmid⟩ | ⟨mid, hbefore, hmid⟩
  · cases mid with
    | nil =>
      rw [List.nil_append, List.cons.injEq] at hmid
      rw [hmid.1]
      exact UInt64.le_refl _
    | cons r mid =>
      -- the eager run would hand the batch out a second time
      rw [List.cons_append, List.cons.injEq] at hmid
      obtain ⟨d, out, hrun, hb⟩ := hcame₀.ahead (hfront _ _ _ h₀)
      have hpackets : before₁.map Record.packet = (before₀ ++ [r₀]).map Record.packet ++ mid.map Record.packet := by
        rw [hbefore, ← hmid.1, ← List.map_append, List.append_assoc, List.singleton_append]
      exact absurd hb (hcame₁.once (hfront _ _ _ h₁) hpackets hrun)
  · cases mid with
    | nil =>
      rw [List.nil_append, List.cons.injEq] at hmid
      rw [hmid.1]
      exact UInt64.le_refl _
    | cons r mid =>
      rw [List.cons_append, List.cons.injEq] at hmid
      rw [h₀, hbefore, ← hmid.1] at hsorted
      exact (List.pairwise_append.mp hsorted).2.2 r₁ (by simp) r₀ (List.mem_cons_self ..)

omit [Hasher] in
/-- The times of a batch in both tables, when it comes out no later with recovery. -/
theorem time_le {r₀ r₁ : Record} {time₀ time₁ : UInt64} (hle : r₁.unixNanos ≤ r₀.unixNanos)
    (hsmall : r₀.unixNanos.toNat + 46000 < 2 ^ 64)
    (h₀ : time₀ = r₀.unixNanos ∨ time₀ = r₀.unixNanos + recoveryCostUs * 1000)
    (h₁ : time₁ = r₁.unixNanos ∨ time₁ = r₁.unixNanos + recoveryCostUs * 1000) : time₁.toNat ≤ time₀.toNat + 46000 := by
  have hcost : (recoveryCostUs * 1000).toNat = 46000 := by decide
  rw [UInt64.le_iff_toNat_le] at hle
  have hlow : r₀.unixNanos.toNat ≤ time₀.toNat := by
    rcases h₀ with rfl | rfl
    · exact le_rfl
    · rw [UInt64.toNat_add, hcost, Nat.mod_eq_of_lt hsmall]
      omega
  have hhigh : time₁.toNat ≤ r₁.unixNanos.toNat + 46000 := by
    rcases h₁ with rfl | rfl
    · omega
    · rw [UInt64.toNat_add, hcost]
      exact Nat.mod_le _ _
  omega

omit [Hasher] in
theorem Tabled.lookup_isSome {stamped : List (EntryBatch E × UInt64)} (h : Tabled wincode clock out stamped) (k : ℕ × ℕ) :
    (clock.times.lookup k).isSome = true ↔ ∃ b ∈ out, b.key = k := by
  rw [Option.isSome_iff_exists]
  constructor
  · intro hv
    obtain ⟨v, hv⟩ := hv
    obtain ⟨x, hx, heq⟩ := List.mem_map.mp ((h.lookup k v).mp hv)
    rw [← h.out_eq]
    exact ⟨x.1, List.mem_map_of_mem hx, (Prod.mk.inj heq).1⟩
  · rintro ⟨b, hb, rfl⟩
    rw [← h.out_eq] at hb
    obtain ⟨x, hx, rfl⟩ := List.mem_map.mp hb
    exact ⟨_, (h.lookup _ _).mpr (List.mem_map_of_mem hx)⟩

omit [Hasher] in
/-- The eager batches with a key of the waiting table are the waiting run's batches. -/
theorem Tabled.shared {stamped₀ : List (EntryBatch E × UInt64)} (h₀ : Tabled wincode clock₀ out₀ stamped₀)
    (hkeys₀ : (out₀.map EntryBatch.key).Nodup) (hkeys₁ : (out₁.map EntryBatch.key).Nodup) (hsub : out₀ ⊆ out₁) :
    (out₁.filter fun b => (clock₀.times.lookup b.key).isSome).Perm out₀ := by
  refine (List.perm_ext_iff_of_nodup (hkeys₁.of_map.filter _) hkeys₀.of_map).mpr fun b => ?_
  rw [List.mem_filter, h₀.lookup_isSome]
  constructor
  · rintro ⟨hb, b₀, hb₀, hkey⟩
    rw [← List.inj_on_of_nodup_map hkeys₁ (hsub hb₀) hb hkey]
    exact hb₀
  · intro hb
    exact ⟨hsub hb, b, hb, rfl⟩

omit [Hasher] in
theorem Tabled.shared_total {stamped₀ stamped₁ : List (EntryBatch E × UInt64)} (h₀ : Tabled wincode clock₀ out₀ stamped₀)
    (h₁ : Tabled wincode clock₁ out₁ stamped₁) (hkeys₀ : (out₀.map EntryBatch.key).Nodup)
    (hkeys₁ : (out₁.map EntryBatch.key).Nodup) (hsub : out₀ ⊆ out₁) {order : List ((_ : ℕ × ℕ) × (UInt64 × UInt64))}
    (horder : order.Perm clock₁.times.entries) :
    UInt64.ofNat (transactionsIn (order.filter fun e => (clock₀.times.lookup e.1).isSome)) =
      UInt64.ofNat (out₀.map fun b => b.numTransactions wincode).sum := by
  have hfilter : ((stamped₁.map (tableEntry wincode)).map fun e => (⟨e.1, e.2⟩ : (_ : ℕ × ℕ) × (UInt64 × UInt64))).filter
      (fun e => (clock₀.times.lookup e.1).isSome) =
      ((stamped₁.filter fun x => (clock₀.times.lookup x.1.key).isSome).map (tableEntry wincode)).map fun e => ⟨e.1, e.2⟩ := by
    rw [List.filter_map, List.filter_map]
    rfl
  have hfst : (stamped₁.filter fun x => (clock₀.times.lookup x.1.key).isSome).map Prod.fst =
      out₁.filter fun b => (clock₀.times.lookup b.key).isSome := by
    rw [← h₁.out_eq, List.filter_map]
    rfl
  rw [transactionsIn_perm ((horder.trans h₁.perm).filter _), hfilter, transactionsIn_stamped, hfst,
    ((h₀.shared hkeys₀ hkeys₁ hsub).map _).sum_eq]

/-- On a capture of leader blocks, with its records in the order of their times, the report
says what recovery gains: every batch of the waiting run is in the eager table too, no later
than a recovery's cost, and the transactions delivered only thanks to recovery are those
that the eager run counts and the waiting run does not. -/
theorem recovery_gains (wincode : Wincode E) (rs : ReedSolomon) (reader : Reader) (records : List Record)
    (blocks : ℕ → Block) (Codeword : List Bytes → Prop) (version a : ℕ) (hitems : reader.items = records.map .ok)
    (hB : FromBlocks blocks Codeword rs version a (records.map Record.packet))
    (hsorted : records.Pairwise fun r r' => r.unixNanos ≤ r'.unixNanos)
    (hsmall : ∀ r ∈ records, r.unixNanos.toNat + 46000 < 2 ^ 64) :
    ∃ eager waiting d₁ out₁ d₀ out₀, batchTimes wincode rs reader true = .ok (.ok eager) ∧
      batchTimes wincode rs reader false = .ok (.ok waiting) ∧
      Deshredder.pushEach wincode (.new ⟨none, 64, true⟩ rs) (records.map Record.packet) = .ok (d₁, out₁) ∧
      Deshredder.pushEach wincode (.new ⟨none, 64, false⟩ rs) (records.map Record.packet) = .ok (d₀, out₀) ∧
      (∀ key time₀ txs, waiting.lookup key = some (time₀, txs) →
        ∃ time₁, eager.lookup key = some (time₁, txs) ∧ time₁.toNat ≤ time₀.toNat + 46000) ∧
      ∀ order : List ((_ : ℕ × ℕ) × (UInt64 × UInt64)), order.Perm eager.entries →
        (transactionLatency order waiting).onlyWithRecovery = d₁.stats.transactions - d₀.stats.transactions ∧
        (transactionLatency order waiting).ties + UInt64.ofNat (transactionLatency order waiting).deltas.length =
          d₀.stats.transactions := by
  obtain ⟨d₀, out₀, d₁, out₁, hrun₀, hrun₁, hsub⟩ := hB.both wincode
  obtain ⟨clock₀, htimes₀, rfl, hC₀⟩ := batchTimes_returns hitems hrun₀
  obtain ⟨clock₁, htimes₁, rfl, hC₁⟩ := batchTimes_returns hitems hrun₁
  have hkeys₀ := keys_nodup (by decide) (by decide) hB.inRange hrun₀
  have hkeys₁ := keys_nodup (by decide) (by decide) hB.inRange hrun₁
  obtain ⟨stamped₀, hT₀, hcame₀⟩ := hC₀.tabled hkeys₀
  obtain ⟨stamped₁, hT₁, hcame₁⟩ := hC₁.tabled hkeys₁
  refine ⟨_, _, _, out₁, _, out₀, htimes₁, htimes₀, hrun₁, hrun₀, ?_, ?_⟩
  · intro key time₀ txs hfound
    obtain ⟨x₀, hx₀, heq⟩ := List.mem_map.mp ((hT₀.lookup _ _).mp hfound)
    have hout₁ : x₀.1 ∈ stamped₁.map Prod.fst := by
      rw [hT₁.out_eq]
      apply hsub
      rw [← hT₀.out_eq]
      exact List.mem_map_of_mem hx₀
    obtain ⟨x₁, hx₁, hsame⟩ := List.mem_map.mp hout₁
    obtain ⟨before₀, r₀, after₀, hrecords₀, hwith₀⟩ := hcame₀ x₀ hx₀
    obtain ⟨before₁, r₁, after₁, hrecords₁, hwith₁⟩ := hcame₁ x₁ hx₁
    rw [hsame] at hwith₁
    have hle := came_no_later hrecords₀ hrecords₁ hB hsorted hwith₀ hwith₁
    have hmem₀ : r₀ ∈ records := by
      rw [hrecords₀]
      exact List.mem_append_right _ (List.mem_cons_self ..)
    refine ⟨x₁.2, ?_, ?_⟩
    · rw [hT₁.lookup]
      refine List.mem_map.mpr ⟨x₁, hx₁, ?_⟩
      simp only [tableEntry, Prod.mk.injEq] at heq ⊢
      rw [hsame]
      exact ⟨heq.1, trivial, heq.2.2⟩
    · simp only [tableEntry, Prod.mk.injEq] at heq
      rw [← heq.2.1]
      exact time_le hle (hsmall r₀ hmem₀) hwith₀.time hwith₁.time
  · intro order horder
    have hcounts := transactionLatency_counts order clock₀.times
    have hboth := hcounts.both
    rw [hT₀.shared_total hT₁ hkeys₀ hkeys₁ hsub horder, ← hC₀.transactions] at hboth
    have htotal := hcounts.total
    rw [transactionsIn_perm horder, hT₁.total, ← hC₁.transactions, hcounts.adds_up, hboth] at htotal
    refine ⟨?_, hboth⟩
    rw [← htotal]
    grind

theorem lateCapture_sorted : lateCapture.Pairwise fun r r' => r.unixNanos ≤ r'.unixNanos := by
  refine List.pairwise_append.mpr ⟨?_, List.pairwise_singleton _ _, ?_⟩
  · refine List.pairwise_map.mpr (List.pairwise_of_forall fun p q => ?_)
    exact UInt64.le_refl _
  · intro r hr r' hr'
    obtain ⟨place, _, rfl⟩ := List.mem_map.mp hr
    rw [List.mem_singleton.mp hr']
    show (5 : UInt64) ≤ 60000
    decide

omit [Hasher] in
/-- On the sample capture 31 of the 32 transactions come out thanks to recovery. -/
theorem recovery_gains_late_capture :
    let : Hasher := sha256Hasher
    ∃ eager waiting : BatchTimes,
      batchTimes layoutDecoder sampleRs ⟨lateCapture.flatMap Record.encode⟩ true = .ok (.ok eager) ∧
      batchTimes layoutDecoder sampleRs ⟨lateCapture.flatMap Record.encode⟩ false = .ok (.ok waiting) ∧
      (transactionLatency eager.entries waiting).onlyWithRecovery = 31 ∧
      (transactionLatency eager.entries waiting).ties +
        UInt64.ofNat (transactionLatency eager.entries waiting).deltas.length = 1 := by
  let : Hasher := sha256Hasher
  intro _
  obtain ⟨d₁, out₁, hrun₁, _, htxs₁⟩ := lateCapture_replays true
  obtain ⟨d₀, out₀, hrun₀, _, htxs₀⟩ := lateCapture_replays false
  obtain ⟨eager, waiting, d₁', out₁', d₀', out₀', h₁, h₀, hrun₁', hrun₀', _, hreport⟩ :=
    recovery_gains layoutDecoder sampleRs _ lateCapture sampleBlocks (CarriedCodeword 7 (encodeSegment sampleRun)) 0 7
      lateCapture_items lateCapture_fromBlocks lateCapture_sorted (by
        intro r hr
        rcases (lateCapture_mem hr).1 with h | h
        · rw [h]
          decide
        · rw [h]
          decide)
  rw [hrun₁] at hrun₁'
  rw [hrun₀] at hrun₀'
  cases hrun₁'
  cases hrun₀'
  obtain ⟨hgain, hboth⟩ := hreport _ (List.Perm.refl _)
  rw [htxs₁, htxs₀] at hgain
  rw [htxs₀] at hboth
  exact ⟨eager, waiting, h₁, h₀, hgain, hboth⟩

end

end Deshred
