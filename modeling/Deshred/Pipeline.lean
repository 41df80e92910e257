import Mathlib.Logic.Relation
import Deshred.Lib.Interleave
import Deshred.Traceless

/-!
# The two threads (pipeline.rs)

A receiver thread pulls datagrams off the socket and puts them into a bounded channel,
a worker thread takes them out and pushes them into the Deshredder. The counters are
shared. A step of the model is one such action of one thread, or of the caller.
-/

namespace Deshred

/-! ### Pushing with decoding -/

/-- What wincode makes of the bytes of a run that is not a block marker. -/
structure Wincode (E : Type) where
  deserialize : Bytes → Option (List E)
  transactions : E → ℕ

inductive BlockData (E : Type) where
  | entries (entries : List E)
  | blockMarker

structure EntryBatch (E : Type) where
  slot : ℕ
  shreds : ℕ × ℕ
  lastInSlot : Bool
  entries : List E

variable {E : Type}

/- `entry::decode`. -/
def decode (wincode : Wincode E) (bytes : Bytes) : Option (BlockData E) :=
  if 8 ≤ bytes.length ∧ bytes.take 8 = List.replicate 8 0 then some .blockMarker
  else (wincode.deserialize bytes).map .entries

namespace Deshredder

/- The closure `push` hands to `push_raw`. -/
def onRaw (wincode : Wincode E) (stats : Stats) (raw : RawBatch) : Stats × List (EntryBatch E) :=
  match decode wincode raw.bytes with
  | some (.entries entries) =>
    ({ stats with
        entries := stats.entries + UInt64.ofNat entries.length
        transactions := stats.transactions + UInt64.ofNat (entries.map wincode.transactions).sum },
      [⟨raw.slot, raw.shreds, raw.lastInSlot, entries⟩])
  | some .blockMarker => ({ stats with blockMarkers := stats.blockMarkers + 1 }, [])
  | none => ({ stats with decodeErrors := stats.decodeErrors + 1 }, [])

def onRaws (wincode : Wincode E) (stats : Stats) : List RawBatch → Stats × List (EntryBatch E)
  | [] => (stats, [])
  | raw :: raws =>
    let (stats, out) := onRaw wincode stats raw
    let (stats, outs) := onRaws wincode stats raws
    (stats, out ++ outs)

/- The batches that decode, without the counters. -/
def batchesOf (wincode : Wincode E) (raw : RawBatch) : List (EntryBatch E) :=
  match decode wincode raw.bytes with
  | some (.entries entries) => [⟨raw.slot, raw.shreds, raw.lastInSlot, entries⟩]
  | some .blockMarker => []
  | none => []

theorem onRaws_out (wincode : Wincode E) (stats : Stats) (raws : List RawBatch) :
    (onRaws wincode stats raws).2 = raws.flatMap (batchesOf wincode) := by
  induction raws generalizing stats with
  | nil => rfl
  | cons raw raws ih =>
    have hraw : (onRaw wincode stats raw).2 = batchesOf wincode raw := by
      unfold onRaw batchesOf
      split <;> rfl
    rw [List.flatMap_cons, ← hraw, ← ih (onRaw wincode stats raw).1]
    rfl

theorem onRaws_counts (wincode : Wincode E) (stats : Stats) (raws : List RawBatch) :
    (onRaws wincode stats raws).1.packets = stats.packets ∧
      (onRaws wincode stats raws).1.dropped = stats.dropped := by
  induction raws generalizing stats with
  | nil => exact ⟨rfl, rfl⟩
  | cons raw raws ih =>
    have hraw : (onRaw wincode stats raw).1.packets = stats.packets ∧
        (onRaw wincode stats raw).1.dropped = stats.dropped := by
      unfold onRaw
      split <;> exact ⟨rfl, rfl⟩
    obtain ⟨h1, h2⟩ := ih (onRaw wincode stats raw).1
    exact ⟨h1.trans hraw.1, h2.trans hraw.2⟩

variable [Hasher]

def push (d : Deshredder) (wincode : Wincode E) (packet : Bytes) :
    Except Panic (Deshredder × List (EntryBatch E)) :=
  match d.pushRaw packet with
  | .error p => .error p
  | .ok (d, raws) =>
    let (stats, out) := onRaws wincode d.stats raws
    .ok ({ d with stats := stats }, out)

theorem pushRaw_counts {d d' : Deshredder} {packet : Bytes} {out : List RawBatch}
    (h : d.pushRaw packet = .ok (d', out)) :
    d'.stats.packets = d.stats.packets + 1 ∧ d'.stats.dropped = d.stats.dropped := by
  unfold pushRaw at h
  dsimp only at h
  split at h
  · cases h
    exact ⟨rfl, rfl⟩
  · split at h
    · cases h
      exact ⟨rfl, rfl⟩
    · split at h
      · cases h
        exact ⟨rfl, rfl⟩
      · split at h
        · contradiction
        · rename_i hins
          cases h
          have hcounts := SlotState.insert_counts hins
          exact ⟨hcounts.packets, hcounts.dropped⟩

theorem push_ok {d d' : Deshredder} {wincode : Wincode E} {packet : Bytes} {out : List (EntryBatch E)}
    (h : d.push wincode packet = .ok (d', out)) : ∃ d₁ raws, d.pushRaw packet = .ok (d₁, raws) ∧
      SameButStats d₁ d' ∧ out = raws.flatMap (batchesOf wincode) ∧
      d'.stats.packets = d.stats.packets + 1 ∧ d'.stats.dropped = d.stats.dropped := by
  unfold push at h
  split at h
  · contradiction
  · rename_i d₁ raws hraw
    cases h
    obtain ⟨h1, h2⟩ := pushRaw_counts hraw
    obtain ⟨h3, h4⟩ := onRaws_counts wincode d₁.stats raws
    exact ⟨d₁, raws, hraw, ⟨rfl, rfl, rfl, rfl⟩, onRaws_out .., h3.trans h1, h4.trans h2⟩

end Deshredder

/-! ### The threads -/

/- Where the receiver thread stands in `receive_loop`. -/
inductive ReceiverAt where
  | checking
  | receiving
  | draining
  /-- `try_send` found the channel full, the counter is not raised yet. -/
  | refused (packet : Bytes)
  | returned

inductive WorkerAt where
  | waiting
  | holding (packet : Bytes)
  | finished
  | panicked

/- Where the owner of the pipeline stands in `shutdown`. -/
inductive CallerAt where
  | running
  | joiningReceiver
  | joiningWorker
  | returned

/-- The state of both threads; the last three fields are its history. -/
structure Pipeline (E : Type) where
  receiver : ReceiverAt
  batch : List Bytes
  channel : List Bytes
  worker : WorkerAt
  deshredder : Deshredder
  stop : Bool
  caller : CallerAt
  received : List Bytes
  pushed : List Bytes
  sunk : List (EntryBatch E)

namespace ReceiverAt

def inHand : ReceiverAt → List Bytes
  | refused packet => [packet]
  | checking => []
  | receiving => []
  | draining => []
  | returned => []

end ReceiverAt

namespace WorkerAt

def inHand : WorkerAt → List Bytes
  | holding packet => [packet]
  | waiting => []
  | finished => []
  | panicked => []

/- The worker's end of the channel goes when its thread does. -/
def Ended (worker : WorkerAt) : Prop := worker = finished ∨ worker = panicked

end WorkerAt

namespace Pipeline

/-- `socket::BATCH` -/
def batchSize : ℕ := 64

def start (config : Config) (rs : ReedSolomon) : Pipeline E where
  receiver := .checking
  batch := []
  channel := []
  worker := .waiting
  deshredder := .new config rs
  stop := false
  caller := .running
  received := []
  pushed := []
  sunk := []

/- What the receiver has taken off the socket and not passed on. -/
def inBatch (s : Pipeline E) : List Bytes := s.receiver.inHand ++ s.batch

def countDropped (d : Deshredder) : Deshredder :=
  { d with stats := { d.stats with dropped := d.stats.dropped + 1 } }

section
variable [Hasher] (capacity : ℕ) (wincode : Wincode E)

/-- One action of one thread. The channel of capacity 0 hands a datagram to a worker
that waits for it. -/
inductive Step : Pipeline E → Pipeline E → Prop where
  | goesOn (s) (h : s.receiver = .checking) (hs : s.stop = false) : Step s { s with receiver := .receiving }
  | stops (s) (h : s.receiver = .checking) (hs : s.stop = true) : Step s { s with receiver := .returned }
  | fails (s) (h : s.receiver = .receiving) : Step s { s with receiver := .checking }
  | receives (s) (h : s.receiver = .receiving) (packets : List Bytes) (hn : packets.length ≤ batchSize) :
      Step s { s with receiver := .draining, batch := s.batch ++ packets, received := s.received ++ packets }
  | drained (s) (h : s.receiver = .draining) (hb : s.batch = []) : Step s { s with receiver := .checking }
  | sends (s) (h : s.receiver = .draining) (packet : Bytes) (rest : List Bytes) (hb : s.batch = packet :: rest)
      (hc : s.channel.length < capacity) (hw : ¬ s.worker.Ended) :
      Step s { s with batch := rest, channel := s.channel ++ [packet] }
  | hands (s) (h : s.receiver = .draining) (packet : Bytes) (rest : List Bytes) (hb : s.batch = packet :: rest)
      (hc : capacity = 0) (hq : s.channel = []) (hw : s.worker = .waiting) :
      Step s { s with batch := rest, worker := .holding packet }
  | findsFull (s) (h : s.receiver = .draining) (packet : Bytes) (rest : List Bytes) (hb : s.batch = packet :: rest)
      (hc : capacity ≤ s.channel.length) (hw : ¬ s.worker.Ended) :
      Step s { s with batch := rest, receiver := .refused packet }
  | counts (s) (packet : Bytes) (h : s.receiver = .refused packet) :
      Step s { s with receiver := .draining, deshredder := countDropped s.deshredder }
  | disconnects (s) (h : s.receiver = .draining) (hb : s.batch ≠ []) (hw : s.worker.Ended) :
      Step s { s with batch := [], receiver := .returned }
  | takes (s) (h : s.worker = .waiting) (packet : Bytes) (rest : List Bytes) (hc : s.channel = packet :: rest) :
      Step s { s with worker := .holding packet, channel := rest }
  | ends (s) (h : s.worker = .waiting) (hc : s.channel = []) (hr : s.receiver = .returned) :
      Step s { s with worker := .finished }
  | pushes (s) (packet : Bytes) (h : s.worker = .holding packet) (d : Deshredder) (out : List (EntryBatch E))
      (hp : s.deshredder.push wincode packet = .ok (d, out)) :
      Step s { s with worker := .waiting, deshredder := d, pushed := s.pushed ++ [packet], sunk := s.sunk ++ out }
  | panics (s) (packet : Bytes) (h : s.worker = .holding packet) :
      Step s { s with worker := .panicked, channel := [] }
  | shutdown (s) (h : s.caller = .running) : Step s { s with stop := true, caller := .joiningReceiver }
  | joinsReceiver (s) (h : s.caller = .joiningReceiver) (hr : s.receiver = .returned) :
      Step s { s with caller := .joiningWorker }
  | joinsWorker (s) (h : s.caller = .joiningWorker) (hw : s.worker.Ended) : Step s { s with caller := .returned }

/-- What any interleaving of the threads leads to. -/
def Reachable (config : Config) (rs : ReedSolomon) (s : Pipeline E) : Prop :=
  Relation.ReflTransGen (Step capacity wincode) (start config rs) s

end

/-! ### Where the datagrams are -/

/-- Every datagram received is pushed, with the worker, in the channel or with the
receiver, each of them in this order, or counted as dropped. -/
structure Accounted (s : Pipeline E) : Prop where
  split : ∃ lost, Interleave (s.pushed ++ s.worker.inHand ++ s.channel ++ s.inBatch) lost s.received ∧
    s.deshredder.stats.dropped = UInt64.ofNat lost.length
  packets : s.deshredder.stats.packets = UInt64.ofNat s.pushed.length

/-- Nothing is left underway. -/
structure Drained (s : Pipeline E) : Prop where
  channel : s.channel = []
  batch : s.inBatch = []
  worker : s.worker.inHand = []
  total : s.deshredder.stats.packets + s.deshredder.stats.dropped = UInt64.ofNat s.received.length
  order : s.pushed.Sublist s.received

/- The datagrams that left the batch; the others are at the end of those received. -/
structure Ledger (s : Pipeline E) : Prop where
  split : ∃ settled lost, s.received = settled ++ s.inBatch ∧
    Interleave (s.pushed ++ s.worker.inHand ++ s.channel) lost settled ∧
    s.deshredder.stats.dropped = UInt64.ofNat lost.length
  packets : s.deshredder.stats.packets = UInt64.ofNat s.pushed.length

/- Who has to wait for whom. -/
structure Phases (s : Pipeline E) : Prop where
  batch : s.receiver = .checking ∨ s.receiver = .receiving ∨ s.receiver = .returned → s.batch = []
  finished : s.worker = .finished → s.receiver = .returned ∧ s.channel = []
  joined : s.caller = .joiningWorker ∨ s.caller = .returned → s.receiver = .returned
  ended : s.caller = .returned → s.worker.Ended

/- The receiver has not left its loop. -/
structure Working (s : Pipeline E) : Prop where
  worker : s.worker ≠ .finished
  joining : s.caller ≠ .joiningWorker
  returned : s.caller ≠ .returned

theorem Ledger.accounted {s : Pipeline E} (h : Ledger s) : Accounted s := by
  obtain ⟨settled, lost, hrec, hsplit, hdropped⟩ := h.split
  refine ⟨⟨lost, ?_, hdropped⟩, h.packets⟩
  rw [hrec]
  exact hsplit.append_kept _

section
variable [Hasher] {capacity : ℕ} {wincode : Wincode E} {s s' : Pipeline E}

theorem Step.worker_ne (h : Step capacity wincode s s') (hw : s'.worker ≠ .panicked) : s.worker ≠ .panicked := by
  intro hp
  cases h with
  | hands _ _ _ _ _ _ h => rw [hp] at h; contradiction
  | takes h => rw [hp] at h; contradiction
  | ends h => rw [hp] at h; contradiction
  | pushes _ h => rw [hp] at h; contradiction
  | panics => exact hw rfl
  | _ => exact hw hp

omit [Hasher] in
theorem Phases.working (h : Phases s) (hr : s.receiver ≠ .returned) : Working s where
  worker hw := hr (h.finished hw).1
  joining hc := hr (h.joined (.inl hc))
  returned hc := hr (h.joined (.inr hc))

omit [Hasher] in
theorem Working.phases (h : Working s)
    (hb : s.receiver = .checking ∨ s.receiver = .receiving ∨ s.receiver = .returned → s.batch = []) : Phases s where
  batch := hb
  finished hw := absurd hw h.worker
  joined hc := (hc.elim h.joining h.returned).elim
  ended hc := absurd hc h.returned

omit [Hasher] in
theorem Phases.receiving (hP : Phases s) (hr : s.receiver ≠ .returned) (hw : s'.worker = .finished → s.worker = .finished)
    (hc : s'.caller = s.caller)
    (hb : s'.receiver = .checking ∨ s'.receiver = .receiving ∨ s'.receiver = .returned → s'.batch = []) :
    Phases s' := by
  have hW := hP.working hr
  refine Working.phases ⟨fun hfin => hW.worker (hw hfin), ?_, ?_⟩ hb
  · rw [hc]
    exact hW.joining
  · rw [hc]
    exact hW.returned

theorem Step.phases (h : Step capacity wincode s s') (hP : Phases s) : Phases s' := by
  cases h with
  | goesOn h hs => exact hP.receiving (by simp [h]) id rfl fun _ => hP.batch (.inl h)
  | stops h hs => exact ⟨fun _ => hP.batch (.inl h), fun hw => ⟨rfl, (hP.finished hw).2⟩, fun _ => rfl, hP.ended⟩
  | fails h => exact hP.receiving (by simp [h]) id rfl fun _ => hP.batch (.inr (.inl h))
  | receives h packets hn => exact hP.receiving (by simp [h]) id rfl (by simp)
  | drained h hb => exact hP.receiving (by simp [h]) id rfl fun _ => hb
  | sends h packet rest hb hc hw => exact hP.receiving (by simp [h]) id rfl (by simp [h])
  | hands h packet rest hb hc hq hw => exact hP.receiving (by simp [h]) (by simp) rfl (by simp [h])
  | findsFull h packet rest hb hc hw => exact hP.receiving (by simp [h]) id rfl (by simp)
  | counts packet h => exact hP.receiving (by simp [h]) id rfl (by simp)
  | disconnects h hb hw => exact ⟨fun _ => rfl, fun hw' => ⟨rfl, (hP.finished hw').2⟩, fun _ => rfl, hP.ended⟩
  | takes h packet rest hc =>
    have hlive : ¬ s.worker.Ended := by simp [WorkerAt.Ended, h]
    exact ⟨hP.batch, by simp, hP.joined, fun hc => absurd (hP.ended hc) hlive⟩
  | ends h hc hr => exact ⟨hP.batch, fun _ => ⟨hr, hc⟩, hP.joined, fun _ => .inl rfl⟩
  | pushes packet h d out hp =>
    have hlive : ¬ s.worker.Ended := by simp [WorkerAt.Ended, h]
    exact ⟨hP.batch, by simp, hP.joined, fun hc => absurd (hP.ended hc) hlive⟩
  | panics packet h => exact ⟨hP.batch, by simp, hP.joined, fun _ => .inr rfl⟩
  | shutdown h => exact ⟨hP.batch, hP.finished, by simp, by simp⟩
  | joinsReceiver h hr => exact ⟨hP.batch, hP.finished, fun _ => hr, by simp⟩
  | joinsWorker h hw => exact ⟨hP.batch, hP.finished, fun _ => hP.joined (.inl h), fun _ => hw⟩

/-- Each action keeps the account, unless the worker panics. -/
theorem Step.ledger (h : Step capacity wincode s s') (hP : Phases s) (hw : s'.worker ≠ .panicked) (hL : Ledger s) :
    Ledger s' := by
  obtain ⟨⟨settled, lost, hrec, hsplit, hdropped⟩, hpackets⟩ := hL
  cases h with
  -- the datagrams stay where they are
  | goesOn h _ | stops h _ | fails h | drained h _ =>
    rw [inBatch, h] at hrec
    exact ⟨⟨settled, lost, hrec, hsplit, hdropped⟩, hpackets⟩
  | receives h packets hn =>
    rw [inBatch, h] at hrec
    refine ⟨⟨settled, lost, ?_, hsplit, hdropped⟩, hpackets⟩
    show s.received ++ packets = settled ++ (s.batch ++ packets)
    rw [hrec, List.append_assoc]
    rfl
  | sends h packet rest hb hc hw =>
    rw [inBatch, h, hb] at hrec
    refine ⟨⟨settled ++ [packet], lost, ?_, ?_, hdropped⟩, hpackets⟩
    · simp only [inBatch, h, hrec, ReceiverAt.inHand, List.nil_append, List.append_assoc, List.singleton_append]
    · have happ := hsplit.append_kept [packet]
      rwa [List.append_assoc] at happ
  | hands h packet rest hb hc hq hwait =>
    rw [inBatch, h, hb] at hrec
    rw [hwait, hq] at hsplit
    refine ⟨⟨settled ++ [packet], lost, ?_, ?_, hdropped⟩, hpackets⟩
    · simp only [inBatch, h, hrec, ReceiverAt.inHand, List.nil_append, List.append_assoc, List.singleton_append]
    · have happ := hsplit.append_kept [packet]
      simpa [WorkerAt.inHand, hq] using happ
  | findsFull h packet rest hb hc hw =>
    rw [inBatch, h, hb] at hrec
    exact ⟨⟨settled, lost, hrec, hsplit, hdropped⟩, hpackets⟩
  | counts packet h =>
    rw [inBatch, h] at hrec
    refine ⟨⟨settled ++ [packet], lost ++ [packet], ?_, hsplit.snoc_lost packet, ?_⟩, hpackets⟩
    · simp only [inBatch, hrec, ReceiverAt.inHand, List.nil_append, List.append_assoc]
    · show s.deshredder.stats.dropped + 1 = UInt64.ofNat (lost ++ [packet]).length
      rw [hdropped, List.length_append, UInt64.ofNat_add]
      rfl
  | disconnects h hb hend =>
    -- a worker that ended without a panic saw the sender go
    rcases hend with hend | hend
    · have hret := (hP.finished hend).1
      rw [h] at hret
      contradiction
    · exact absurd hend hw
  | takes h packet rest hc =>
    rw [h, hc] at hsplit
    refine ⟨⟨settled, lost, hrec, ?_, hdropped⟩, hpackets⟩
    simpa [WorkerAt.inHand] using hsplit
  | ends h hc hr =>
    rw [h] at hsplit
    exact ⟨⟨settled, lost, hrec, hsplit, hdropped⟩, hpackets⟩
  | pushes packet h d out hp =>
    obtain ⟨d₁, raws, _, _, _, hcount, hsame⟩ := Deshredder.push_ok hp
    rw [h] at hsplit
    refine ⟨⟨settled, lost, hrec, ?_, hsame.trans hdropped⟩, ?_⟩
    · simpa [WorkerAt.inHand] using hsplit
    · show d.stats.packets = UInt64.ofNat (s.pushed ++ [packet]).length
      rw [hcount, hpackets, List.length_append, UInt64.ofNat_add]
      rfl
  | panics packet h => exact absurd rfl hw
  | shutdown | joinsReceiver | joinsWorker => exact ⟨⟨settled, lost, hrec, hsplit, hdropped⟩, hpackets⟩

omit [Hasher] in
theorem Ledger.start (config : Config) (rs : ReedSolomon) : Ledger (start config rs : Pipeline E) :=
  ⟨⟨[], [], rfl, .nil, rfl⟩, rfl⟩

omit [Hasher] in
theorem Phases.start (config : Config) (rs : ReedSolomon) : Phases (start config rs : Pipeline E) :=
  ⟨fun _ => rfl, nofun, nofun, nofun⟩

theorem Reachable.next {config : Config} {rs : ReedSolomon} (h : Reachable capacity wincode config rs s)
    (hstep : Step capacity wincode s s') : Reachable capacity wincode config rs s' :=
  Relation.ReflTransGen.tail h hstep

theorem Reachable.phases {config : Config} {rs : ReedSolomon} (h : Reachable capacity wincode config rs s) :
    Phases s := by
  induction h with
  | refl => exact Phases.start config rs
  | tail _ hstep ih => exact hstep.phases ih

theorem Reachable.ledger {config : Config} {rs : ReedSolomon} (h : Reachable capacity wincode config rs s)
    (hw : s.worker ≠ .panicked) : Ledger s := by
  induction h with
  | refl => exact Ledger.start config rs
  | tail hprev hstep ih => exact hstep.ledger (Reachable.phases hprev) hw (ih (hstep.worker_ne hw))

omit [Hasher] in
theorem Ledger.drained (h : Ledger s) (hP : Phases s) (hw : s.worker ≠ .panicked) (hc : s.caller = .returned) :
    Drained s := by
  have hret := hP.joined (.inr hc)
  have hbatch : s.inBatch = [] := by
    rw [inBatch, hret, hP.batch (.inr (.inr hret))]
    rfl
  have hfin : s.worker = .finished := (hP.ended hc).resolve_right hw
  have hchannel := (hP.finished hfin).2
  have hhand : s.worker.inHand = [] := by rw [hfin, WorkerAt.inHand]
  obtain ⟨settled, lost, hrec, hsplit, hdropped⟩ := h.split
  rw [hbatch, List.append_nil] at hrec
  rw [hhand, hchannel, List.append_nil, List.append_nil, ← hrec] at hsplit
  refine ⟨hchannel, hbatch, hhand, ?_, hsplit.kept_sublist⟩
  rw [h.packets, hdropped, ← UInt64.ofNat_add, hsplit.length_eq]

/-- No datagram is lost silently, whatever the threads do first, as long as the worker
does not panic. -/
theorem nothing_lost (capacity : ℕ) (wincode : Wincode E) (config : Config) (rs : ReedSolomon) {s : Pipeline E}
    (h : Reachable capacity wincode config rs s) (hw : s.worker ≠ .panicked) :
    Accounted s ∧ (s.caller = .returned → Drained s) :=
  ⟨(h.ledger hw).accounted, (h.ledger hw).drained h.phases hw⟩

omit [Hasher] in
/-- One empty datagram goes through, then the caller shuts down. -/
theorem nothing_lost_shutdown : ∃ s : Pipeline Unit,
    @Reachable Unit sha256Hasher 1 ⟨fun _ => none, fun _ => 0⟩ ⟨none, 64, true⟩ ReedSolomon.failing s ∧
      s.caller = .returned ∧ s.received = [[]] ∧ Accounted s ∧ Drained s := by
  let : Hasher := sha256Hasher
  have hrun : Reachable 1 (⟨fun _ => none, fun _ => 0⟩ : Wincode Unit) ⟨none, 64, true⟩ ReedSolomon.failing
      (start ⟨none, 64, true⟩ ReedSolomon.failing) := Relation.ReflTransGen.refl
  have hrun := hrun.next (.goesOn _ rfl rfl)
  have hrun := hrun.next (.receives _ rfl [[]] (by decide))
  have hrun := hrun.next (.sends _ rfl [] [] rfl (by decide) (by simp [WorkerAt.Ended, start]))
  have hrun := hrun.next (.drained _ rfl rfl)
  have hrun := hrun.next (.shutdown _ rfl)
  have hrun := hrun.next (.stops _ rfl rfl)
  have hrun := hrun.next (.takes _ rfl [] [] rfl)
  have hrun := hrun.next (.pushes _ [] rfl _ _ rfl)
  have hrun := hrun.next (.ends _ rfl rfl rfl)
  have hrun := hrun.next (.joinsReceiver _ rfl rfl)
  have hrun := hrun.next (.joinsWorker _ rfl (.inl rfl))
  obtain ⟨hacc, hdrained⟩ := nothing_lost 1 _ _ _ hrun (by simp)
  exact ⟨_, hrun, rfl, rfl, hacc, hdrained rfl⟩

/-! ### What the sink gets -/

/-- The worker's Deshredder is one that was fed the datagrams pushed, but for the
counters, and the sink has had its batches in order. -/
def Sunk (config : Config) (rs : ReedSolomon) (wincode : Wincode E) (s : Pipeline E) : Prop :=
  ∃ d out, (Deshredder.new config rs).pushAll s.pushed = .ok (d, out) ∧
    Deshredder.SameButStats d s.deshredder ∧ s.sunk = out.flatMap (Deshredder.batchesOf wincode)

theorem Step.sunk {config : Config} {rs : ReedSolomon} (h : Step capacity wincode s s') (hS : Sunk config rs wincode s) :
    Sunk config rs wincode s' := by
  obtain ⟨d₀, raws, hrun, hsame, hsunk⟩ := hS
  cases h with
  | pushes packet h d out hp =>
    obtain ⟨d₁, raws₁, hraw, hsame₁, rfl, _⟩ := Deshredder.push_ok hp
    obtain ⟨d₂, hrun₂, hsame₂⟩ := hsame.pushAll_snoc hrun hraw
    refine ⟨d₂, raws ++ raws₁, hrun₂, hsame₂.trans hsame₁, ?_⟩
    show s.sunk ++ raws₁.flatMap _ = _
    rw [hsunk, List.flatMap_append]
  | counts packet h =>
    exact ⟨d₀, raws, hrun, ⟨hsame.config, hsame.slots, hsame.highestSlot, hsame.rs⟩, hsunk⟩
  | _ => exact ⟨d₀, raws, hrun, hsame, hsunk⟩

theorem Reachable.sunk {config : Config} {rs : ReedSolomon} (h : Reachable capacity wincode config rs s) :
    Sunk config rs wincode s := by
  induction h with
  | refl => exact ⟨_, [], rfl, ⟨rfl, rfl, rfl, rfl⟩, rfl⟩
  | tail _ hstep ih => exact hstep.sunk ih

end

end Pipeline
end Deshred
