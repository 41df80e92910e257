import Deshred.Decoding
import Deshred.Socket

/-!
# A whole session (pipeline.rs, bin/deshred.rs)

The worker thread at a finer grain than in `Pipeline`: it shows each datagram to the
tap, which records it, then pushes it, then hands the batches one by one to its sink, a
bounded channel with a consumer at its other end. Every action is one of `Pipeline`, or
changes nothing there.
-/

namespace Deshred
variable {E : Type}

/-- `ChannelSink`: the batches in the channel, and those the consumer has taken out. -/
structure ChannelSink (E : Type) where
  queue : List (EntryBatch E)
  /-- The consumer still holds its end. -/
  connected : Bool
  taken : List (EntryBatch E)

structure Session (E : Type) where
  pipeline : Pipeline E
  /-- The tap has seen the datagram that the worker holds. -/
  tapped : Bool
  /-- What the worker has decoded and not yet handed to the sink. -/
  out : List (EntryBatch E)
  recorder : Option Fixture.Writer
  sink : ChannelSink E

namespace Session

def start (config : Config) (rs : ReedSolomon) (recording : Bool) : Session E where
  pipeline := .start config rs
  tapped := false
  out := []
  recorder := if recording then some (Fixture.Writer.new []) else none
  sink := ⟨[], true, []⟩

/- The closure that `deshred listen --record` installs as a tap. A packet that the
writer refuses is logged and left out. -/
def record (recorder : Option Fixture.Writer) (nanos : UInt64) (packet : Bytes) : Option Fixture.Writer :=
  recorder.map fun writer => (writer.writeAt nanos packet).1

section
variable [Hasher] (capacity sinkCapacity : ℕ) (wincode : Wincode E)

/-- One action of the receiver, of the worker or of the caller. -/
inductive Step : Session E → Session E → Prop where
  /-- The receiver or the caller; packets come from `recv_batch`. -/
  | others (s) (p : Pipeline E) (h : Pipeline.Step capacity wincode s.pipeline p) (hw : p.worker = s.pipeline.worker)
      (hlen : ∀ b ∈ p.received, b.length ≤ maxPacketSize) : Step s { s with pipeline := p }
  /-- The worker takes a datagram, or finds the channel closed, once `out` is drained. -/
  | turns (s) (p : Pipeline E) (h : Pipeline.Step capacity wincode s.pipeline p) (hw : s.pipeline.worker = .waiting)
      (hp : p.worker ≠ .waiting) (ho : s.out = []) : Step s { s with pipeline := p, tapped := false }
  | taps (s) (packet : Bytes) (h : s.pipeline.worker = .holding packet) (ht : s.tapped = false) (nanos : UInt64) :
      Step s { s with tapped := true, recorder := record s.recorder nanos packet }
  | pushes (s) (packet : Bytes) (h : s.pipeline.worker = .holding packet) (ht : s.tapped = true) (d : Deshredder)
      (out : List (EntryBatch E)) (hp : s.pipeline.deshredder.push wincode packet = .ok (d, out)) :
      Step s { s with
        pipeline := { s.pipeline with
          worker := .waiting
          deshredder := d
          pushed := s.pipeline.pushed ++ [packet]
          sunk := s.pipeline.sunk ++ out }
        out := out }
  | panics (s) (packet : Bytes) (h : s.pipeline.worker = .holding packet) (ht : s.tapped = true) (p : Panic)
      (hp : s.pipeline.deshredder.push wincode packet = .error p) :
      Step s { s with pipeline := { s.pipeline with worker := .panicked, channel := [] } }
  | sinks (s) (b : EntryBatch E) (rest : List (EntryBatch E)) (ho : s.out = b :: rest) (hc : s.sink.connected = true)
      (hq : s.sink.queue.length < sinkCapacity) :
      Step s { s with out := rest, sink := { s.sink with queue := s.sink.queue ++ [b] } }
  /-- The consumer is gone: `send` fails, and `on_batch` ignores it. -/
  | discards (s) (b : EntryBatch E) (rest : List (EntryBatch E)) (ho : s.out = b :: rest)
      (hc : s.sink.connected = false) : Step s { s with out := rest }

/-- One action of the consumer. A sink of capacity 0 hands a batch over when both sides
are there. -/
inductive Consume : Session E → Session E → Prop where
  | takes (s) (hc : s.sink.connected = true) (b : EntryBatch E) (rest : List (EntryBatch E)) (hq : s.sink.queue = b :: rest) :
      Consume s { s with sink := { s.sink with queue := rest, taken := s.sink.taken ++ [b] } }
  | meets (s) (hc : s.sink.connected = true) (b : EntryBatch E) (rest : List (EntryBatch E)) (ho : s.out = b :: rest)
      (hz : sinkCapacity = 0) (hq : s.sink.queue = []) :
      Consume s { s with out := rest, sink := { s.sink with taken := s.sink.taken ++ [b] } }
  | leaves (s) (hc : s.sink.connected = true) :
      Consume s { s with sink := { s.sink with queue := [], connected := false } }

def Move (s t : Session E) : Prop := Step capacity sinkCapacity wincode s t ∨ Consume sinkCapacity s t

/-- What any interleaving of all parties leads to. -/
def Reachable (config : Config) (rs : ReedSolomon) (recording : Bool) (s : Session E) : Prop :=
  Relation.ReflTransGen (Move capacity sinkCapacity wincode) (start config rs recording) s

end

section
variable [Hasher] {capacity sinkCapacity : ℕ} {wincode : Wincode E} {config : Config} {rs : ReedSolomon}
  {recording : Bool} {s s' : Session E}

/-! ### The threads of `Pipeline` -/

theorem Step.refines (h : Step capacity sinkCapacity wincode s s') :
    Pipeline.Step capacity wincode s.pipeline s'.pipeline ∨ s'.pipeline = s.pipeline := by
  cases h with
  | others p h hw hlen => exact .inl h
  | turns p h hw hp ho => exact .inl h
  | taps packet h ht nanos => exact .inr rfl
  | pushes packet h ht d out hp => exact .inl (.pushes s.pipeline packet h d out hp)
  | panics packet h ht p hp => exact .inl (.panics s.pipeline packet h)
  | sinks b rest ho hc hq => exact .inr rfl
  | discards b rest ho hc => exact .inr rfl

omit [Hasher] in
theorem Consume.pipeline_eq (h : Consume sinkCapacity s s') : s'.pipeline = s.pipeline := by
  cases h with
  | takes hc b rest hq => rfl
  | meets hc b rest ho hz hq => rfl
  | leaves hc => rfl

theorem Move.refines (h : Move capacity sinkCapacity wincode s s') :
    Pipeline.Step capacity wincode s.pipeline s'.pipeline ∨ s'.pipeline = s.pipeline := by
  rcases h with h | h
  · exact h.refines
  · exact .inr h.pipeline_eq

theorem Reachable.pipeline (h : Reachable capacity sinkCapacity wincode config rs recording s) :
    Pipeline.Reachable capacity wincode config rs s.pipeline := by
  induction h with
  | refl => exact Relation.ReflTransGen.refl
  | tail _ hmove ih =>
    rcases hmove.refines with hstep | heq
    · exact ih.next hstep
    · rw [heq]
      exact ih

end
end Session

namespace Pipeline
variable [Hasher] {capacity : ℕ} {wincode : Wincode E} {s p : Pipeline E}

/- Received and not yet pushed. -/
def inFlight (s : Pipeline E) : List Bytes := s.worker.inHand ++ s.channel ++ s.inBatch

omit [Hasher] in
@[simp] theorem mem_inFlight {b : Bytes} : b ∈ s.inFlight ↔
    b ∈ s.worker.inHand ∨ b ∈ s.channel ∨ b ∈ s.receiver.inHand ∨ b ∈ s.batch := by
  simp only [inFlight, inBatch, List.mem_append, or_assoc]

theorem Step.inFlight (h : Step capacity wincode s p) {b : Bytes} (hb : b ∈ p.inFlight) :
    b ∈ s.inFlight ∨ b ∈ p.received := by
  rw [mem_inFlight] at hb ⊢
  cases h with
  | receives h packets hn =>
    simp only [List.mem_append, ReceiverAt.inHand] at hb ⊢
    tauto
  | _ => simp_all [ReceiverAt.inHand, WorkerAt.inHand] <;> tauto

theorem Step.received_turn (h : Step capacity wincode s p) (hw : s.worker = .waiting) (hp : p.worker ≠ .waiting) :
    p.received = s.received := by
  cases h with
  | receives h packets hn => exact absurd hw hp
  | _ => rfl

theorem Step.inFlight_turn (h : Step capacity wincode s p) (hw : s.worker = .waiting) (hp : p.worker ≠ .waiting)
    {b : Bytes} (hb : b ∈ p.inFlight) : b ∈ s.inFlight := by
  rw [mem_inFlight] at hb ⊢
  cases h with
  | takes h packet rest hc => simp_all [WorkerAt.inHand, or_assoc]
  | hands h packet rest hq hc hw => simp_all [WorkerAt.inHand]; tauto
  | ends h hc hr => simp_all [WorkerAt.inHand]
  | panics packet h => exact absurd (hw.symm.trans h) (by simp)
  | pushes packet h d out hp => exact absurd (hw.symm.trans h) (by simp)
  | _ => exact absurd hw hp

/- What stays when the worker does not move. -/
structure Aside (s p : Pipeline E) : Prop where
  pushed : p.pushed = s.pushed
  sunk : p.sunk = s.sunk
  deshredder : Deshredder.SameButStats s.deshredder p.deshredder

theorem Step.aside (h : Step capacity wincode s p) (hw : ∀ packet, s.worker = .holding packet → p.worker = s.worker) :
    Aside s p := by
  have hsame : Deshredder.SameButStats s.deshredder s.deshredder := ⟨rfl, rfl, rfl, rfl⟩
  cases h with
  | pushes packet h d out hp => exact absurd (hw packet h) (by simp [h])
  | panics packet h => exact absurd (hw packet h) (by simp [h])
  | counts packet h => exact ⟨rfl, rfl, ⟨rfl, rfl, rfl, rfl⟩⟩
  | _ => exact ⟨rfl, rfl, hsame⟩

end Pipeline

namespace Session
section
variable [Hasher] {capacity sinkCapacity : ℕ} {wincode : Wincode E} {config : Config} {rs : ReedSolomon}
  {recording : Bool} {s s' : Session E}

/-! ### What the session keeps true -/

/- The datagrams shown to the tap so far: those pushed, and the one in hand if it has
been shown. After a panic the last one is the one that caused it. -/
def Shown (wincode : Wincode E) (s : Session E) (packets : List Bytes) : Prop :=
  match s.pipeline.worker with
  | .waiting => packets = s.pipeline.pushed
  | .finished => packets = s.pipeline.pushed
  | .holding packet => packets = s.pipeline.pushed ++ if s.tapped then [packet] else []
  | .panicked => ∃ packet p, packets = s.pipeline.pushed ++ [packet] ∧
      s.pipeline.deshredder.push wincode packet = .error p

/- The batches decoded so far are with the consumer, in its channel or still with the
worker, in this order. -/
structure SinkInv (sinkCapacity : ℕ) (s : Session E) : Prop where
  draining : s.out ≠ [] → s.pipeline.worker = .waiting
  queue : s.sink.queue.length ≤ sinkCapacity
  connected : s.sink.connected = true → s.pipeline.sunk = s.sink.taken ++ s.sink.queue ++ s.out
  taken : s.sink.taken <+: s.pipeline.sunk

/- The recorder has the datagrams shown to the tap. -/
structure TapInv (wincode : Wincode E) (s : Session E) : Prop where
  received : ∀ b ∈ s.pipeline.received, b.length ≤ maxPacketSize
  small : ∀ b ∈ s.pipeline.inFlight, b.length ≤ maxPacketSize
  recorded : ∀ writer, s.recorder = some writer → ∃ records : List Fixture.Record, (∀ r ∈ records, r.Accepted) ∧
    writer.inner = Fixture.capture records ∧ Shown wincode s (records.map Fixture.Record.packet)

omit [Hasher] in
theorem SinkInv.start (config : Config) (rs : ReedSolomon) (recording : Bool) :
    SinkInv sinkCapacity (start config rs recording : Session E) where
  draining h := absurd rfl h
  queue := Nat.zero_le _
  connected _ := rfl
  taken := List.prefix_rfl

theorem SinkInv.step (hI : SinkInv sinkCapacity s) (h : Step capacity sinkCapacity wincode s s') :
    SinkInv sinkCapacity s' := by
  cases h with
  | others p h hw hlen =>
    have haside := h.aside fun _ _ => hw
    refine ⟨fun ho => hw.trans (hI.draining ho), hI.queue, fun hc => haside.sunk.trans (hI.connected hc), ?_⟩
    rw [haside.sunk]
    exact hI.taken
  | turns p h hw hp ho =>
    have haside := h.aside fun packet hh => absurd (hw.symm.trans hh) (by simp)
    refine ⟨fun hne => absurd ho hne, hI.queue, fun hc => haside.sunk.trans (hI.connected hc), ?_⟩
    rw [haside.sunk]
    exact hI.taken
  | taps packet h ht nanos => exact ⟨hI.draining, hI.queue, hI.connected, hI.taken⟩
  | pushes packet h ht d out hp =>
    have hout : s.out = [] := by
      by_contra hne
      rw [hI.draining hne] at h
      contradiction
    refine ⟨fun _ => rfl, hI.queue, fun hc => ?_, hI.taken.trans (List.prefix_append _ _)⟩
    have hsunk := hI.connected hc
    rw [hout, List.append_nil] at hsunk
    exact congrArg (· ++ out) hsunk
  | panics packet h ht p hp =>
    refine ⟨fun hne => ?_, hI.queue, hI.connected, hI.taken⟩
    rw [hI.draining hne] at h
    contradiction
  | sinks b rest ho hc hq =>
    refine ⟨fun _ => hI.draining (by rw [ho]; exact List.cons_ne_nil _ _), ?_, fun _ => ?_, hI.taken⟩
    · rw [List.length_append]
      exact hq
    · rw [hI.connected hc, ho]
      simp
  | discards b rest ho hc =>
    refine ⟨fun _ => hI.draining (by rw [ho]; exact List.cons_ne_nil _ _), hI.queue, fun hconn => ?_, hI.taken⟩
    exact absurd (hc.symm.trans hconn) Bool.false_ne_true

omit [Hasher] in
theorem SinkInv.consume (hI : SinkInv sinkCapacity s) (h : Consume sinkCapacity s s') : SinkInv sinkCapacity s' := by
  cases h with
  | takes hc b rest hq =>
    have hsunk := hI.connected hc
    rw [hq] at hsunk
    have hqueue := hI.queue
    rw [hq, List.length_cons] at hqueue
    have hsplit : s.pipeline.sunk = (s.sink.taken ++ [b]) ++ rest ++ s.out := by
      rw [hsunk]
      simp
    refine ⟨hI.draining, Nat.le_of_succ_le hqueue, fun _ => hsplit, ?_⟩
    rw [hsplit, List.append_assoc]
    exact List.prefix_append _ _
  | meets hc b rest ho hz hq =>
    have hsunk := hI.connected hc
    rw [hq, ho] at hsunk
    have hsplit : s.pipeline.sunk = (s.sink.taken ++ [b]) ++ s.sink.queue ++ rest := by
      rw [hsunk, hq]
      simp
    refine ⟨fun _ => hI.draining (by rw [ho]; exact List.cons_ne_nil _ _), hI.queue, fun _ => hsplit, ?_⟩
    rw [hsplit, List.append_assoc]
    exact List.prefix_append _ _
  | leaves hc =>
    exact ⟨hI.draining, Nat.zero_le _, fun hconn => absurd hconn Bool.false_ne_true, hI.taken⟩

theorem Reachable.sinkInv (h : Reachable capacity sinkCapacity wincode config rs recording s) :
    SinkInv sinkCapacity s := by
  induction h with
  | refl => exact SinkInv.start config rs recording
  | tail _ hmove ih =>
    rcases hmove with hstep | hconsume
    · exact ih.step hstep
    · exact ih.consume hconsume

theorem TapInv.start (config : Config) (rs : ReedSolomon) (recording : Bool) :
    TapInv wincode (start config rs recording : Session E) := by
  refine ⟨by simp [Session.start, Pipeline.start], by simp [Session.start, Pipeline.start, WorkerAt.inHand, ReceiverAt.inHand],
    fun writer hw => ⟨[], by simp, ?_, rfl⟩⟩
  simp only [Session.start, Option.ite_none_right_eq_some, Option.some.injEq] at hw
  rw [← hw.2]
  rfl

theorem Shown.aside {p : Pipeline E} {packets : List Bytes} (haside : Pipeline.Aside s.pipeline p)
    (hw : p.worker = s.pipeline.worker) (h : Shown wincode s packets) : Shown wincode { s with pipeline := p } packets := by
  unfold Shown at h ⊢
  dsimp only
  rw [hw, haside.pushed]
  cases hworker : s.pipeline.worker with
  | panicked =>
    rw [hworker] at h
    obtain ⟨packet, q, heq, hpush⟩ := h
    exact ⟨packet, q, heq, Deshredder.push_panics haside.deshredder (Deshredder.push_error_iff.mp hpush)⟩
  | _ =>
    rw [hworker] at h
    exact h

theorem Shown.turn {p : Pipeline E} {packets : List Bytes} (hstep : Pipeline.Step capacity wincode s.pipeline p)
    (hw : s.pipeline.worker = .waiting) (hp : p.worker ≠ .waiting) (h : Shown wincode s packets) :
    Shown wincode { s with pipeline := p, tapped := false } packets := by
  have haside := hstep.aside fun packet hh => absurd (hw.symm.trans hh) (by simp)
  have hpushed : packets = s.pipeline.pushed := by
    rw [Shown, hw] at h
    exact h
  have hpanic : p.worker ≠ .panicked := by
    cases hstep with
    | panics packet hh =>
      rw [hw] at hh
      contradiction
    | _ => simp_all
  unfold Shown
  dsimp only
  rw [haside.pushed]
  cases hworker : p.worker with
  | waiting => exact hpushed
  | holding packet => simpa using hpushed
  | finished => exact hpushed
  | panicked => exact absurd hworker hpanic

omit [Hasher] in
/- A packet off the socket fits into a record. -/
theorem writeAt_small (writer : Fixture.Writer) {packet : Bytes} (h : packet.length ≤ maxPacketSize) (nanos : UInt64) :
    Fixture.Record.Accepted ⟨nanos, packet⟩ ∧
      (writer.writeAt nanos packet).1.inner = writer.inner ++ Fixture.Record.encode ⟨nanos, packet⟩ := by
  have hacc : Fixture.Record.Accepted ⟨nanos, packet⟩ := lt_of_le_of_lt h (by decide)
  have hwrite := Fixture.Writer.writeAt_accepted (w := writer) hacc
  dsimp only at hwrite
  exact ⟨hacc, by rw [hwrite]⟩

theorem TapInv.step (hI : TapInv wincode s) (h : Step capacity sinkCapacity wincode s s') : TapInv wincode s' := by
  cases h with
  | others p h hw hlen =>
    have haside := h.aside fun _ _ => hw
    refine ⟨hlen, fun b hb => (h.inFlight hb).elim (hI.small b) (hlen b), fun writer hwr => ?_⟩
    obtain ⟨records, hacc, hinner, hshown⟩ := hI.recorded writer hwr
    exact ⟨records, hacc, hinner, hshown.aside haside hw⟩
  | turns p h hw hp ho =>
    refine ⟨by rw [h.received_turn hw hp]; exact hI.received, fun b hb => hI.small b (h.inFlight_turn hw hp hb), fun writer hwr => ?_⟩
    obtain ⟨records, hacc, hinner, hshown⟩ := hI.recorded writer hwr
    exact ⟨records, hacc, hinner, hshown.turn h hw hp⟩
  | taps packet h ht nanos =>
    refine ⟨hI.received, hI.small, fun writer hwr => ?_⟩
    obtain ⟨before, hbefore, hwrite⟩ := Option.map_eq_some_iff.mp hwr
    obtain ⟨records, hacc, hinner, hshown⟩ := hI.recorded before hbefore
    have hsmall := hI.small packet (by simp [h, WorkerAt.inHand])
    obtain ⟨hnew, happend⟩ := writeAt_small before hsmall nanos
    refine ⟨records ++ [⟨nanos, packet⟩], ?_, ?_, ?_⟩
    · simpa [or_imp, forall_and] using ⟨hacc, hnew⟩
    · rw [← hwrite, happend, hinner]
      simp [Fixture.capture]
    · unfold Shown at hshown ⊢
      dsimp only at hshown ⊢
      rw [h] at hshown ⊢
      dsimp only at hshown ⊢
      rw [ht, if_neg Bool.false_ne_true, List.append_nil] at hshown
      rw [List.map_append, hshown, if_pos rfl]
      rfl
  | pushes packet h ht d out hp =>
    refine ⟨hI.received, fun b hb => hI.small b ?_, fun writer hwr => ?_⟩
    · simp_all [WorkerAt.inHand]
    · obtain ⟨records, hacc, hinner, hshown⟩ := hI.recorded writer hwr
      refine ⟨records, hacc, hinner, ?_⟩
      rw [Shown, h] at hshown
      dsimp only at hshown
      rw [ht, if_pos rfl] at hshown
      exact hshown
  | panics packet h ht p hp =>
    refine ⟨hI.received, fun b hb => hI.small b ?_, fun writer hwr => ?_⟩
    · simp_all [WorkerAt.inHand]
    · obtain ⟨records, hacc, hinner, hshown⟩ := hI.recorded writer hwr
      refine ⟨records, hacc, hinner, packet, p, ?_, hp⟩
      rw [Shown, h] at hshown
      dsimp only at hshown
      rw [ht, if_pos rfl] at hshown
      exact hshown
  | sinks b rest ho hc hq => exact ⟨hI.received, hI.small, hI.recorded⟩
  | discards b rest ho hc => exact ⟨hI.received, hI.small, hI.recorded⟩

theorem Reachable.tapInv (h : Reachable capacity sinkCapacity wincode config rs recording s) : TapInv wincode s := by
  induction h with
  | refl => exact TapInv.start config rs recording
  | tail _ hmove ih =>
    rcases hmove with hstep | hconsume
    · exact ih.step hstep
    · cases hconsume with
      | takes hc b rest hq => exact ⟨ih.received, ih.small, ih.recorded⟩
      | meets hc b rest ho hz hq => exact ⟨ih.received, ih.small, ih.recorded⟩
      | leaves hc => exact ⟨ih.received, ih.small, ih.recorded⟩

theorem Reachable.recorder (h : Reachable capacity sinkCapacity wincode config rs recording s) :
    s.recorder.isSome = recording := by
  induction h with
  | refl => cases recording <;> rfl
  | tail _ hmove ih =>
    rcases hmove with hstep | hconsume
    · cases hstep with
      | taps packet h ht nanos =>
        rw [← ih]
        exact Option.isSome_map
      | _ => exact ih
    · cases hconsume with
      | _ => exact ih

theorem Reachable.next (h : Reachable capacity sinkCapacity wincode config rs recording s)
    (hstep : Step capacity sinkCapacity wincode s s') : Reachable capacity sinkCapacity wincode config rs recording s' :=
  h.tail (.inl hstep)

/-! ### A sample session -/

/- Two data shreds, and what a session is run with. -/
def samplePackets : List Bytes := [samplePacket (0, .data 0), samplePacket (0, .data 1)]

def SampleReachable (s : Session Entry) : Prop := Reachable 1 1 layoutDecoder ⟨none, 64, true⟩ sampleRs true s

theorem samplePackets_small : ∀ b ∈ samplePackets, b.length ≤ maxPacketSize := by
  intro b hb
  simp only [samplePackets, List.mem_cons, List.not_mem_nil, or_false] at hb
  rcases hb with rfl | rfl
  · exact (Deshredder.carriedPacket_length sampleSlot_lt sampleRun_fits _).trans (by decide)
  · exact (Deshredder.carriedPacket_length sampleSlot_lt sampleRun_fits _).trans (by decide)

/- The stop flag goes up while the first datagram is with the worker and the second one
with the receiver. -/
structure Stopping (s : Session Entry) : Prop where
  reachable : SampleReachable s
  stop : s.pipeline.stop = true
  worker : s.pipeline.worker = .holding (samplePacket (0, .data 0))
  batch : s.pipeline.batch = [samplePacket (0, .data 1)]

/- The first batch is in the consumer's channel, which has no room for the second. -/
structure Waiting (s : Session Entry) : Prop where
  reachable : SampleReachable s
  stop : s.pipeline.stop = true
  receiver : s.pipeline.receiver = .returned
  caller : s.pipeline.caller = .joiningWorker
  worker : s.pipeline.worker = .waiting
  channel : s.pipeline.channel = []
  received : s.pipeline.received = samplePackets
  pushed : s.pipeline.pushed = samplePackets
  dropped : s.pipeline.deshredder.stats.dropped = 0
  sunk : s.pipeline.sunk = [sampleBatch 0, sampleBatch 1]
  out : s.out = [sampleBatch 1]
  sink : s.sink = ⟨[sampleBatch 0], true, []⟩

theorem sample_session : (∃ s, Stopping s) ∧ ∃ s, Waiting s := by
  obtain ⟨d₁, hpush₁, hP₁⟩ := Deshredder.Primed.new.next (show 0 < 32 by decide)
  obtain ⟨d₂, hpush₂, _⟩ := hP₁.next (show 1 < 32 by decide)
  obtain ⟨_, _, _, _, _, _, hdropped₁⟩ := Deshredder.push_ok hpush₁
  obtain ⟨_, _, _, _, _, _, hdropped₂⟩ := Deshredder.push_ok hpush₂
  have hnone : ∀ b ∈ ([] : List Bytes), b.length ≤ maxPacketSize := List.forall_mem_nil _
  have hsmall : ∀ b ∈ [] ++ samplePackets, b.length ≤ maxPacketSize := samplePackets_small
  have hwaiting : ¬ WorkerAt.Ended .waiting := by simp [WorkerAt.Ended]
  have hrun : SampleReachable (start ⟨none, 64, true⟩ sampleRs true) := Relation.ReflTransGen.refl
  have hrun := hrun.next (.others _ _ (.goesOn _ rfl rfl) rfl hnone)
  have hrun := hrun.next (.others _ _ (.receives _ rfl samplePackets (show 2 ≤ 64 by decide)) rfl hsmall)
  have hrun := hrun.next (.others _ _ (.sends _ rfl _ _ rfl Nat.one_pos hwaiting) rfl hsmall)
  have hrun := hrun.next (.turns _ _ (.takes _ rfl _ _ rfl) rfl (by simp) rfl)
  have hrun := hrun.next (.others _ _ (.shutdown _ rfl) rfl hsmall)
  refine ⟨⟨_, hrun, rfl, rfl, rfl⟩, ?_⟩
  have hrun := hrun.next (.taps _ _ rfl rfl 5)
  have hrun := hrun.next (.pushes _ _ rfl rfl _ _ hpush₁)
  have hrun := hrun.next (.sinks _ _ _ rfl rfl Nat.one_pos)
  have hrun := hrun.next (.others _ _ (.sends _ rfl _ _ rfl Nat.one_pos hwaiting) rfl hsmall)
  have hrun := hrun.next (.turns _ _ (.takes _ rfl _ _ rfl) rfl (by simp) rfl)
  have hrun := hrun.next (.taps _ _ rfl rfl 6)
  have hrun := hrun.next (.pushes _ _ rfl rfl _ _ hpush₂)
  have hrun := hrun.next (.others _ _ (.drained _ rfl rfl) rfl hsmall)
  have hrun := hrun.next (.others _ _ (.stops _ rfl rfl) rfl hsmall)
  have hrun := hrun.next (.others _ _ (.joinsReceiver _ rfl rfl) rfl hsmall)
  exact ⟨_, hrun, rfl, rfl, rfl, rfl, rfl, rfl, rfl, hdropped₂.trans hdropped₁, rfl, rfl, rfl⟩

/-! ### The consumer -/

/-- Whatever the parties do first, the consumer has a prefix of what a Deshredder alone
makes of the datagrams pushed, and nothing is missing or repeated as long as it holds
its end of the channel. -/
theorem consumer_sees (capacity sinkCapacity : ℕ) (wincode : Wincode E) (config : Config) (rs : ReedSolomon)
    (recording : Bool) (h : Reachable capacity sinkCapacity wincode config rs recording s) :
    ∃ d raws, (Deshredder.new config rs).pushAll s.pipeline.pushed = .ok (d, raws) ∧
      s.sink.taken <+: raws.flatMap (Deshredder.batchesOf wincode) ∧ s.sink.queue.length ≤ sinkCapacity ∧
      (s.sink.connected = true →
        s.sink.taken ++ s.sink.queue ++ s.out = raws.flatMap (Deshredder.batchesOf wincode)) := by
  obtain ⟨d, raws, hrun, _, hsunk⟩ := h.pipeline.sunk
  have hI := h.sinkInv
  refine ⟨d, raws, hrun, ?_, hI.queue, fun hc => ?_⟩
  · rw [← hsunk]
    exact hI.taken
  · rw [← hsunk, hI.connected hc]

omit [Hasher] in
/-- The consumer has taken the first batch of the sample session, the worker has the second. -/
theorem consumer_sees_two_batches :
    let : Hasher := sha256Hasher
    ∃ (s : Session Entry) (d : Deshredder) (raws : List RawBatch), SampleReachable s ∧
      s.sink.taken = [sampleBatch 0] ∧ s.out = [sampleBatch 1] ∧
      (Deshredder.new ⟨none, 64, true⟩ sampleRs).pushAll samplePackets = .ok (d, raws) ∧
      raws.flatMap (Deshredder.batchesOf layoutDecoder) = [sampleBatch 0, sampleBatch 1] := by
  let : Hasher := sha256Hasher
  intro _
  obtain ⟨_, s, hs⟩ := sample_session
  have hconnected : s.sink.connected = true := by rw [hs.sink]
  have hqueue : s.sink.queue = [sampleBatch 0] := by rw [hs.sink]
  have htake : Consume 1 s _ := .takes s hconnected _ _ hqueue
  obtain ⟨d, raws, hrun, _, _, hall⟩ :=
    consumer_sees 1 1 layoutDecoder ⟨none, 64, true⟩ sampleRs true (hs.reachable.tail (.inr htake))
  have htaken : s.sink.taken ++ [sampleBatch 0] = [sampleBatch 0] := by rw [hs.sink, List.nil_append]
  have hout := hall hconnected
  dsimp only at hout hrun
  rw [htaken, hs.out] at hout
  rw [hs.pushed] at hrun
  exact ⟨_, d, raws, hs.reachable.tail (.inr htake), htaken, hs.out, hrun, hout.symm⟩

/-! ### The recording -/

/- The worker is not in the middle of a datagram. -/
def Between (s : Session E) : Prop := s.pipeline.worker = .waiting ∨ s.pipeline.worker = .finished

theorem Shown.between {packets : List Bytes} (h : Shown wincode s packets) (hb : Between s) :
    packets = s.pipeline.pushed := by
  unfold Shown at h
  rcases hb with hb | hb
  · rw [hb] at h
    exact h
  · rw [hb] at h
    exact h

/- A second Deshredder, fed the same datagrams, stands where the worker's does. -/
theorem Reachable.pushEach (h : Reachable capacity sinkCapacity wincode config rs recording s) :
    ∃ d, Deshredder.pushEach wincode (Deshredder.new config rs) s.pipeline.pushed = .ok (d, s.pipeline.sunk) ∧
      Deshredder.SameButStats s.pipeline.deshredder d := by
  obtain ⟨d, raws, hrun, hsame, hsunk⟩ := h.pipeline.sunk
  obtain ⟨d', heach, hsame'⟩ := Deshredder.pushEach_follows wincode ⟨rfl, rfl, rfl, rfl⟩ hrun
  refine ⟨d', ?_, hsame.symm.trans hsame'⟩
  rw [hsunk]
  exact heach

/-- The capture of a session replays as the session went: between two datagrams it gives
the batches handed out so far, and after a panic it ends in a panic. -/
theorem recording_replays (capacity sinkCapacity : ℕ) (wincode : Wincode E) (config : Config) (rs : ReedSolomon)
    (h : Reachable capacity sinkCapacity wincode config rs true s) :
    ∃ writer reader, s.recorder = some writer ∧ Fixture.Reader.new writer.inner = .ok reader ∧
      (Between s → ∃ d, Fixture.replay wincode reader (Deshredder.new config rs) =
        .ok (d, s.pipeline.sunk, .ok s.pipeline.pushed.length) ∧
        Deshredder.SameButStats s.pipeline.deshredder d) ∧
      (s.pipeline.worker = .panicked →
        ∃ p, Fixture.replay wincode reader (Deshredder.new config rs) = .error p) := by
  obtain ⟨writer, hw⟩ := Option.isSome_iff_exists.mp h.recorder
  obtain ⟨records, hacc, hinner, hshown⟩ := h.tapInv.recorded writer hw
  obtain ⟨reader, hreader, hreplay⟩ := Fixture.replay_whole wincode (Deshredder.new config rs) hacc
  obtain ⟨d, heach, hsame⟩ := h.pushEach
  refine ⟨writer, reader, hw, by rw [hinner]; exact hreader, fun hb => ?_, fun hp => ?_⟩
  · have hpushed := hshown.between hb
    rw [hpushed, heach] at hreplay
    refine ⟨d, ?_, hsame⟩
    rw [hreplay, ← hpushed, List.length_map]
  · unfold Shown at hshown
    rw [hp] at hshown
    obtain ⟨packet, p, hpackets, hpush⟩ := hshown
    have hpanic : d.push wincode packet = .error p :=
      Deshredder.push_panics hsame (Deshredder.push_error_iff.mp hpush)
    rw [hpackets] at hreplay
    cases hall : Deshredder.pushEach wincode (Deshredder.new config rs) (s.pipeline.pushed ++ [packet]) with
    | error q =>
      rw [hall] at hreplay
      exact ⟨q, hreplay⟩
    | ok r =>
      obtain ⟨d₁, out₁, outs, hfirst, hlast, _⟩ := Steps.runAll_snoc_ok.mp hall
      rw [Deshredder.pushEach] at heach
      rw [heach] at hfirst
      simp only [Except.ok.injEq, Prod.mk.injEq] at hfirst
      rw [← hfirst.1, hpanic] at hlast
      contradiction

omit [Hasher] in
/-- The capture of the sample session gives its two batches again. -/
theorem recording_replays_two_batches :
    let : Hasher := sha256Hasher
    ∃ (s : Session Entry) (writer : Fixture.Writer) (reader : Fixture.Reader) (d : Deshredder), SampleReachable s ∧
      s.recorder = some writer ∧ Fixture.Reader.new writer.inner = .ok reader ∧
      Fixture.replay layoutDecoder reader (Deshredder.new ⟨none, 64, true⟩ sampleRs) =
        .ok (d, [sampleBatch 0, sampleBatch 1], .ok 2) := by
  let : Hasher := sha256Hasher
  intro _
  obtain ⟨_, s, hs⟩ := sample_session
  obtain ⟨writer, reader, hw, hreader, hbetween, _⟩ :=
    recording_replays 1 1 layoutDecoder ⟨none, 64, true⟩ sampleRs hs.reachable
  obtain ⟨d, hreplay, _⟩ := hbetween (.inl hs.worker)
  rw [hs.pushed, hs.sunk] at hreplay
  exact ⟨s, writer, reader, d, hs.reachable, hw, hreader, hreplay⟩

/- At most one datagram has been recorded and not yet pushed. -/
theorem Shown.split {packets : List Bytes} (h : Shown wincode s packets) : ∃ inHand,
    packets = s.pipeline.pushed ++ inHand ∧ inHand.length ≤ 1 ∧ (Between s → inHand = []) := by
  unfold Shown at h
  cases hw : s.pipeline.worker with
  | waiting =>
    rw [hw] at h
    exact ⟨[], h.trans (List.append_nil _).symm, Nat.zero_le _, fun _ => rfl⟩
  | finished =>
    rw [hw] at h
    exact ⟨[], h.trans (List.append_nil _).symm, Nat.zero_le _, fun _ => rfl⟩
  | holding packet =>
    rw [hw] at h
    refine ⟨_, h, ?_, fun hb => ?_⟩
    · split
      · exact le_rfl
      · exact Nat.zero_le _
    · rw [Between, hw] at hb
      simp at hb
  | panicked =>
    rw [hw] at h
    obtain ⟨packet, _, heq, _⟩ := h
    refine ⟨[packet], heq, le_rfl, fun hb => ?_⟩
    rw [Between, hw] at hb
    simp at hb

end
end Session
end Deshred
