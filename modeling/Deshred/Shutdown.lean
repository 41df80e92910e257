import Mathlib.Data.Prod.Lex
import Deshred.Session

/-!
# Shutting down (pipeline.rs)

Once the stop flag is up every action of every party moves the session closer to its
end. A session that can go no further has shut down, and one that waits for its consumer
waits for nothing else.
-/

namespace Deshred
variable {E : Type}

/- How many actions a receiver may still make, at most; a batch it has yet to receive
counts with its 64 packets. -/
def ReceiverAt.rank : ReceiverAt → ℕ
  | checking => 1
  | receiving => 3 + 4 * Pipeline.batchSize
  | draining => 2
  | refused _ => 5
  | returned => 0

def CallerAt.rank : CallerAt → ℕ
  | running => 3
  | joiningReceiver => 2
  | joiningWorker => 1
  | returned => 0

/- A datagram in hand is worth one action more before the tap has seen it. -/
def WorkerAt.rank (tapped : Bool) : WorkerAt → ℕ
  | waiting => 1
  | holding _ => if tapped then 2 else 3
  | finished => 0
  | panicked => 0

/-- The stop flag stays up. -/
theorem Pipeline.Step.stop [Hasher] {capacity : ℕ} {wincode : Wincode E} {s p : Pipeline E} (h : Step capacity wincode s p)
    (hstop : s.stop = true) : p.stop = true := by
  cases h with
  | shutdown h => rfl
  | _ => exact hstop

namespace Session

/- The first part goes down with every action on datagrams, the second with every action
on batches; a push trades one of the first for any number of the second. -/
def rank (s : Session E) : ℕ ×ₗ ℕ :=
  toLex (s.pipeline.receiver.rank + 4 * s.pipeline.batch.length + 3 * s.pipeline.channel.length +
    s.pipeline.worker.rank s.tapped + s.pipeline.caller.rank + s.sink.connected.toNat,
    2 * s.out.length + s.sink.queue.length)

section
variable [Hasher] {capacity sinkCapacity : ℕ} {wincode : Wincode E} {config : Config} {rs : ReedSolomon}
  {recording : Bool} {s s' : Session E}

omit [Hasher] in
theorem rank_lt_of_first {s s' : Session E}
    (h : s'.pipeline.receiver.rank + 4 * s'.pipeline.batch.length + 3 * s'.pipeline.channel.length +
      s'.pipeline.worker.rank s'.tapped + s'.pipeline.caller.rank + s'.sink.connected.toNat <
      s.pipeline.receiver.rank + 4 * s.pipeline.batch.length + 3 * s.pipeline.channel.length +
      s.pipeline.worker.rank s.tapped + s.pipeline.caller.rank + s.sink.connected.toNat) : s'.rank < s.rank :=
  Prod.Lex.toLex_lt_toLex.mpr (.inl h)

omit [Hasher] in
theorem rank_lt_of_second {s s' : Session E} (hp : s'.pipeline = s.pipeline) (ht : s'.tapped = s.tapped)
    (hc : s'.sink.connected = s.sink.connected)
    (h : 2 * s'.out.length + s'.sink.queue.length < 2 * s.out.length + s.sink.queue.length) : s'.rank < s.rank := by
  refine Prod.Lex.toLex_lt_toLex.mpr (.inr ⟨?_, h⟩)
  rw [hp, ht, hc]

/-- With the stop flag up, the receiver and the caller only get closer to their ends. -/
theorem others_rank {p : Pipeline E} (h : Pipeline.Step capacity wincode s.pipeline p) (hw : p.worker = s.pipeline.worker)
    (hstop : s.pipeline.stop = true) : ({ s with pipeline := p } : Session E).rank < s.rank := by
  refine rank_lt_of_first ?_
  dsimp only
  rw [hw]
  cases h with
  | goesOn h hs => exact absurd (hstop.symm.trans hs) (by simp)
  | stops h hs => simp [h, ReceiverAt.rank]
  | fails h =>
    simp only [h, ReceiverAt.rank]
    omega
  | receives h packets hn =>
    simp only [h, ReceiverAt.rank, List.length_append]
    omega
  | drained h hb => simp [h, ReceiverAt.rank]
  | sends h packet rest hb hc hw =>
    simp only [hb, List.length_append, List.length_cons, List.length_nil]
    omega
  | hands h packet rest hb hc hq hw' => exact absurd hw (by simp [hw'])
  | findsFull h packet rest hb hc hw =>
    simp only [h, hb, ReceiverAt.rank, List.length_cons]
    omega
  | counts packet h => simp [h, ReceiverAt.rank]
  | disconnects h hb hw =>
    simp only [h, ReceiverAt.rank, List.length_nil]
    omega
  | takes h packet rest hc => exact absurd hw (by simp [h])
  | ends h hc hr => exact absurd hw (by simp [h])
  | pushes packet h d out hp => exact absurd hw (by simp [h])
  | panics packet h => exact absurd hw (by simp [h])
  | shutdown h => simp [h, CallerAt.rank]
  | joinsReceiver h hr => simp [h, CallerAt.rank]
  | joinsWorker h hw => simp [h, CallerAt.rank]

theorem turns_rank {p : Pipeline E} (h : Pipeline.Step capacity wincode s.pipeline p)
    (hw : s.pipeline.worker = .waiting) (hp : p.worker ≠ .waiting) :
    ({ s with pipeline := p, tapped := false } : Session E).rank < s.rank := by
  refine rank_lt_of_first ?_
  dsimp only
  rw [hw]
  cases h with
  | hands h packet rest hb hc hq hw' =>
    simp only [hb, WorkerAt.rank, List.length_cons]
    simp
    omega
  | takes h packet rest hc =>
    simp only [hc, WorkerAt.rank, List.length_cons]
    simp
    omega
  | ends h hc hr => simp [WorkerAt.rank]
  | pushes packet h d out hp => exact absurd (hw.symm.trans h) (by simp)
  | panics packet h => exact absurd (hw.symm.trans h) (by simp)
  | _ => exact absurd hw hp

theorem Step.rank_lt (h : Step capacity sinkCapacity wincode s s') (hstop : s.pipeline.stop = true) :
    s'.rank < s.rank := by
  cases h with
  | others p h hw hlen => exact others_rank h hw hstop
  | turns p h hw hp ho => exact turns_rank h hw hp
  | taps packet h ht nanos =>
    refine rank_lt_of_first ?_
    simp [h, ht, WorkerAt.rank]
  | pushes packet h ht d out hp =>
    refine rank_lt_of_first ?_
    simp [h, ht, WorkerAt.rank]
  | panics packet h ht p hp =>
    refine rank_lt_of_first ?_
    simp only [h, ht, WorkerAt.rank, List.length_nil]
    simp
    omega
  | sinks b rest ho hc hq =>
    refine rank_lt_of_second rfl rfl rfl ?_
    simp only [ho, List.length_cons, List.length_append, List.length_nil]
    omega
  | discards b rest ho hc =>
    refine rank_lt_of_second rfl rfl rfl ?_
    simp only [ho, List.length_cons]
    omega

omit [Hasher] in
theorem Consume.rank_lt (h : Consume sinkCapacity s s') : s'.rank < s.rank := by
  cases h with
  | takes hc b rest hq =>
    refine rank_lt_of_second rfl rfl rfl ?_
    simp only [hq, List.length_cons]
    omega
  | meets hc b rest ho hz hq =>
    refine rank_lt_of_second rfl rfl rfl ?_
    simp only [ho, List.length_cons]
    omega
  | leaves hc =>
    refine rank_lt_of_first ?_
    simp [hc]

theorem Move.rank_lt (h : Move capacity sinkCapacity wincode s s') (hstop : s.pipeline.stop = true) :
    s'.rank < s.rank := by
  rcases h with h | h
  · exact h.rank_lt hstop
  · exact h.rank_lt

theorem Move.stop (h : Move capacity sinkCapacity wincode s s') (hstop : s.pipeline.stop = true) :
    s'.pipeline.stop = true := by
  rcases h.refines with hstep | heq
  · exact hstep.stop hstop
  · rw [heq]
    exact hstop

/-! ### Where a session can stop -/

/- The receiver is done, and the worker waits for room in the consumer's channel. -/
structure Blocked (sinkCapacity : ℕ) (s : Session E) : Prop where
  receiver : s.pipeline.receiver = .returned
  caller : s.pipeline.caller = .joiningWorker
  worker : s.pipeline.worker = .waiting
  out : s.out ≠ []
  connected : s.sink.connected = true
  full : sinkCapacity ≤ s.sink.queue.length

theorem stuck_receiver (hI : TapInv wincode s) (hstop : s.pipeline.stop = true)
    (hstuck : ∀ t, ¬ Step capacity sinkCapacity wincode s t) : s.pipeline.receiver = .returned := by
  have hno : ∀ p, Pipeline.Step capacity wincode s.pipeline p → p.worker = s.pipeline.worker →
      p.received = s.pipeline.received → False := by
    intro p h hw hr
    refine hstuck _ (.others s p h hw ?_)
    rw [hr]
    exact hI.received
  cases hr : s.pipeline.receiver with
  | checking => exact (hno _ (.stops _ hr hstop) rfl rfl).elim
  | receiving => exact (hno _ (.fails _ hr) rfl rfl).elim
  | refused packet => exact (hno _ (.counts _ packet hr) rfl rfl).elim
  | returned => rfl
  | draining =>
    exfalso
    cases hb : s.pipeline.batch with
    | nil => exact hno _ (.drained _ hr hb) rfl rfl
    | cons packet rest =>
      by_cases hw : s.pipeline.worker.Ended
      · exact hno _ (.disconnects _ hr (by rw [hb]; exact List.cons_ne_nil _ _) hw) rfl rfl
      · by_cases hc : s.pipeline.channel.length < capacity
        · exact hno _ (.sends _ hr packet rest hb hc hw) rfl rfl
        · exact hno _ (.findsFull _ hr packet rest hb (Nat.le_of_not_lt hc) hw) rfl rfl

/- A worker with nothing to do waits for its consumer, or has ended. -/
theorem stuck_worker (hr : s.pipeline.receiver = .returned)
    (hstuck : ∀ t, ¬ Step capacity sinkCapacity wincode s t) : s.pipeline.worker.Ended ∨
      s.pipeline.worker = .waiting ∧ s.out ≠ [] ∧ s.sink.connected = true ∧ sinkCapacity ≤ s.sink.queue.length := by
  cases hw : s.pipeline.worker with
  | finished => exact .inl (.inl rfl)
  | panicked => exact .inl (.inr rfl)
  | holding packet =>
    exfalso
    by_cases ht : s.tapped = true
    · cases hp : s.pipeline.deshredder.push wincode packet with
      | error p => exact hstuck _ (.panics s packet hw ht p hp)
      | ok r => exact hstuck _ (.pushes s packet hw ht r.1 r.2 hp)
    · exact hstuck _ (.taps s packet hw (Bool.eq_false_of_not_eq_true ht) 0)
  | waiting =>
    refine .inr ⟨rfl, ?_⟩
    cases ho : s.out with
    | nil =>
      exfalso
      cases hc : s.pipeline.channel with
      | nil => exact hstuck _ (.turns s _ (.ends _ hw hc hr) hw (by simp) ho)
      | cons packet rest => exact hstuck _ (.turns s _ (.takes _ hw packet rest hc) hw (by simp) ho)
    | cons b rest =>
      refine ⟨List.cons_ne_nil _ _, ?_, ?_⟩
      · by_contra hc
        exact hstuck _ (.discards s b rest ho (Bool.eq_false_of_not_eq_true hc))
      · by_contra hq
        by_cases hc : s.sink.connected = true
        · exact hstuck _ (.sinks s b rest ho hc (Nat.lt_of_not_le hq))
        · exact hstuck _ (.discards s b rest ho (Bool.eq_false_of_not_eq_true hc))

theorem stuck_caller (hr : s.pipeline.receiver = .returned) (hI : TapInv wincode s)
    (hstuck : ∀ t, ¬ Step capacity sinkCapacity wincode s t) :
    s.pipeline.caller = .returned ∨ s.pipeline.caller = .joiningWorker ∧ ¬ s.pipeline.worker.Ended := by
  cases hc : s.pipeline.caller with
  | returned => exact .inl rfl
  | running => exact (hstuck _ (.others s _ (.shutdown _ hc) rfl hI.received)).elim
  | joiningReceiver => exact (hstuck _ (.others s _ (.joinsReceiver _ hc hr) rfl hI.received)).elim
  | joiningWorker =>
    exact .inr ⟨rfl, fun hw => hstuck _ (.others s _ (.joinsWorker _ hc hw) rfl hI.received)⟩

/- Both threads have ended and the caller has their results. -/
theorem returned_stuck (hP : Pipeline.Phases s.pipeline) (hI : SinkInv sinkCapacity s)
    (hc : s.pipeline.caller = .returned) (t : Session E) : ¬ Step capacity sinkCapacity wincode s t := by
  have hr := hP.joined (.inr hc)
  have hw := hP.ended hc
  have hwaiting : s.pipeline.worker ≠ .waiting := by
    rcases hw with hw | hw
    · rw [hw]
      simp
    · rw [hw]
      simp
  have hholding : ∀ packet, s.pipeline.worker ≠ .holding packet := by
    intro packet
    rcases hw with hw | hw
    · rw [hw]
      simp
    · rw [hw]
      simp
  intro h
  cases h with
  | others p h hw' hlen => cases h with
    | _ => simp_all
  | turns p h hw' hp ho => exact hwaiting hw'
  | taps packet h ht nanos => exact hholding packet h
  | pushes packet h ht d out hp => exact hholding packet h
  | panics packet h ht p hp => exact hholding packet h
  | sinks b rest ho hc hq => exact hwaiting (hI.draining (by rw [ho]; exact List.cons_ne_nil _ _))
  | discards b rest ho hc => exact hwaiting (hI.draining (by rw [ho]; exact List.cons_ne_nil _ _))

theorem Blocked.stuck (hB : Blocked sinkCapacity s) (t : Session E) : ¬ Step capacity sinkCapacity wincode s t := by
  have hr := hB.receiver
  have hc := hB.caller
  have hw := hB.worker
  intro h
  cases h with
  | others p h hw' hlen => cases h with
    | _ => simp_all [WorkerAt.Ended]
  | turns p h hw' hp ho => exact hB.out ho
  | taps packet h ht nanos => exact absurd (hw.symm.trans h) (by simp)
  | pushes packet h ht d out hp => exact absurd (hw.symm.trans h) (by simp)
  | panics packet h ht p hp => exact absurd (hw.symm.trans h) (by simp)
  | sinks b rest ho hc hq => exact absurd hB.full (Nat.not_le_of_lt hq)
  | discards b rest ho hc => exact absurd (hB.connected.symm.trans hc) (by simp)

theorem Reachable.stuck_cases (h : Reachable capacity sinkCapacity wincode config rs recording s)
    (hstop : s.pipeline.stop = true) (hstuck : ∀ t, ¬ Step capacity sinkCapacity wincode s t) :
    s.pipeline.caller = .returned ∨ Blocked sinkCapacity s := by
  have hr := stuck_receiver h.tapInv hstop hstuck
  rcases stuck_caller hr h.tapInv hstuck with hc | ⟨hc, hended⟩
  · exact .inl hc
  · rcases stuck_worker hr hstuck with hw | ⟨hw, ho, hconn, hfull⟩
    · exact absurd hw hended
    · exact .inr ⟨hr, hc, hw, ho, hconn, hfull⟩

/-- After the stop flag went up, the receiver, the worker and the caller come to a stand
in two places only: where `shutdown` has returned, and where the worker waits for a
consumer that keeps its channel open and full. -/
theorem stuck_iff (capacity sinkCapacity : ℕ) (wincode : Wincode E) (config : Config) (rs : ReedSolomon) (recording : Bool)
    (h : Reachable capacity sinkCapacity wincode config rs recording s) (hstop : s.pipeline.stop = true) :
    (∀ t, ¬ Step capacity sinkCapacity wincode s t) ↔ s.pipeline.caller = .returned ∨ Blocked sinkCapacity s := by
  constructor
  · exact h.stuck_cases hstop
  · rintro (hc | hB)
    · exact returned_stuck h.pipeline.phases h.sinkInv hc
    · exact hB.stuck

theorem Waiting.blocked {s : Session Entry} (h : Waiting s) : Blocked 1 s where
  receiver := h.receiver
  caller := h.caller
  worker := h.worker
  out := by
    rw [h.out]
    exact List.cons_ne_nil _ _
  connected := by rw [h.sink]
  full := by
    rw [h.sink]
    exact le_rfl

omit [Hasher] in
/-- The sample session stands still while the consumer leaves its channel full. -/
theorem stuck_iff_full_channel :
    let : Hasher := sha256Hasher
    ∃ s : Session Entry, SampleReachable s ∧ s.pipeline.stop = true ∧ s.pipeline.pushed = samplePackets ∧ Blocked 1 s ∧
      ∀ t, ¬ Step 1 1 layoutDecoder s t := by
  let : Hasher := sha256Hasher
  intro _
  obtain ⟨_, s, hs⟩ := sample_session
  exact ⟨s, hs.reachable, hs.stop, hs.pushed, hs.blocked,
    (stuck_iff 1 1 layoutDecoder ⟨none, 64, true⟩ sampleRs true hs.reachable hs.stop).mpr (.inr hs.blocked)⟩

omit [Hasher] in
/-- A consumer that is blocked on can always go on. -/
theorem Blocked.consume (hB : Blocked sinkCapacity s) : ∃ t, Consume sinkCapacity s t := by
  cases hq : s.sink.queue with
  | cons b rest => exact ⟨_, .takes s hB.connected b rest hq⟩
  | nil =>
    cases ho : s.out with
    | nil => exact absurd ho hB.out
    | cons b rest =>
      have hfull := hB.full
      rw [hq] at hfull
      exact ⟨_, .meets s hB.connected b rest ho (Nat.le_zero.mp hfull) hq⟩

/-- `shutdown` returns: once the stop flag is up there is no endless run, whatever the
order of the actions, and a run that cannot go on has ended in its return. -/
theorem shutdown_returns (capacity sinkCapacity : ℕ) (wincode : Wincode E) (config : Config) (rs : ReedSolomon)
    (recording : Bool) (h : Reachable capacity sinkCapacity wincode config rs recording s) (hstop : s.pipeline.stop = true) :
    (∀ run : ℕ → Session E, run 0 = s → ∃ n, ¬ Move capacity sinkCapacity wincode (run n) (run (n + 1))) ∧
      ∀ t, Relation.ReflTransGen (Move capacity sinkCapacity wincode) s t →
        (∀ u, ¬ Move capacity sinkCapacity wincode t u) → t.pipeline.caller = .returned := by
  constructor
  · intro run h0
    by_contra hforever
    simp only [not_exists, not_not] at hforever
    have hstops : ∀ n, (run n).pipeline.stop = true := by
      intro n
      induction n with
      | zero =>
        rw [h0]
        exact hstop
      | succ n ih => exact (hforever n).stop ih
    obtain ⟨n, hn⟩ := WellFounded.not_rel_apply_succ (r := (· < ·)) fun n => (run n).rank
    exact hn ((hforever n).rank_lt (hstops n))
  · intro t hrun hend
    have ht : Reachable capacity sinkCapacity wincode config rs recording t := h.trans hrun
    have hstopt : t.pipeline.stop = true := by
      clear hend ht
      induction hrun with
      | refl => exact hstop
      | tail _ hmove ih => exact hmove.stop ih
    have hstuck : ∀ u, ¬ Step capacity sinkCapacity wincode t u := fun u hu => hend u (.inl hu)
    rcases ht.stuck_cases hstopt hstuck with hc | hB
    · exact hc
    · obtain ⟨u, hu⟩ := hB.consume
      exact absurd (.inr hu) (hend u)

omit [Hasher] in
/-- The stop flag went up with two datagrams on their way. -/
theorem shutdown_returns_two_datagrams :
    let : Hasher := sha256Hasher
    ∃ s : Session Entry, Stopping s ∧
      (∀ run : ℕ → Session Entry, run 0 = s → ∃ n, ¬ Move 1 1 layoutDecoder (run n) (run (n + 1))) ∧
      ∀ t, Relation.ReflTransGen (Move 1 1 layoutDecoder) s t → (∀ u, ¬ Move 1 1 layoutDecoder t u) →
        t.pipeline.caller = .returned := by
  let : Hasher := sha256Hasher
  intro _
  obtain ⟨⟨s, hs⟩, _⟩ := sample_session
  exact ⟨s, hs, shutdown_returns 1 1 layoutDecoder ⟨none, 64, true⟩ sampleRs true hs.reachable hs.stop⟩

end
end Session
end Deshred
