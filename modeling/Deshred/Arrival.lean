import Deshred.Degraded
import Deshred.Session

/-!
# From the leader to the consumer

A session whose datagrams all come from leader blocks. Whatever its threads do first, and
whatever it drops under load, the consumer gets runs of the leader, decoded, each at most
once. If nothing was dropped it has all of them when `shutdown` returns.
-/

namespace Deshred
variable {E : Type}

/- Blocks, and a configuration that takes them. -/
structure Served [Hasher] (blocks : ℕ → Block) (Codeword : List Bytes → Prop) (config : Config) (rs : ReedSolomon)
    (version a : ℕ) : Prop where
  lookback : 1 ≤ config.slotLookback ∧ 4 * config.slotLookback < 2 ^ 64
  range : a + 2 * config.slotLookback < 2 ^ 64
  consistent : ∀ t, (blocks t).Consistent Codeword t version
  version : config.shredVersion = none ∨ config.shredVersion = some version
  rebuilds : rs.Rebuilds Codeword

/- The datagrams are shreds of the blocks. -/
def AllSent (blocks : ℕ → Block) (config : Config) (a : ℕ) (packets : List Bytes) : Prop :=
  ∀ b ∈ packets, ∃ x, Deshredder.FromLeader blocks a config.slotLookback b x

/-- A batch of the leader that these datagrams are enough for, decoded. -/
def Arrives (wincode : Wincode E) (blocks : ℕ → Block) (recover : Bool) (packets : List Bytes) (e : EntryBatch E) : Prop :=
  ∃ b, (blocks b.slot).Delivered recover (Deshredder.arrivals packets b.slot) b.shreds.1 b.shreds.2 ∧
    b = Deshredder.leaderBatch blocks b.slot b.shreds.1 b.shreds.2 ∧ e ∈ Deshredder.batchesOf wincode b

theorem arrivals_mono {packets packets' : List Bytes} (h : packets ⊆ packets') (slot f : ℕ) :
    Deshredder.arrivals packets slot f ⊆ Deshredder.arrivals packets' slot f := by
  intro q hq
  obtain ⟨b, hb, hat⟩ := List.mem_filterMap.mp (List.mem_toFinset.mp hq)
  exact List.mem_toFinset.mpr (List.mem_filterMap.mpr ⟨b, h hb, hat⟩)

theorem Arrives.mono {wincode : Wincode E} {blocks : ℕ → Block} {recover : Bool} {packets packets' : List Bytes}
    {e : EntryBatch E} (h : Arrives wincode blocks recover packets e) (hsub : packets ⊆ packets') :
    Arrives wincode blocks recover packets' e := by
  obtain ⟨b, hb, heq, he⟩ := h
  exact ⟨b, hb.imp fun i hi => ⟨hi.1, hi.2.mono (arrivals_mono hsub b.slot _)⟩, heq, he⟩

section
variable [Hasher] {wincode : Wincode E} {blocks : ℕ → Block} {Codeword : List Bytes → Prop} {config : Config}
  {rs : ReedSolomon} {version a : ℕ} {packets : List Bytes}

theorem Served.delivering (h : Served blocks Codeword config rs version a) (hp : AllSent blocks config a packets) :
    ∃ d raws, (Deshredder.new config rs).pushAll packets = .ok (d, raws) ∧
      Deshredder.Delivering blocks config rs a packets d raws :=
  Deshredder.pushAll_delivering packets h.lookback.1 h.lookback.2 h.range h.consistent h.version h.rebuilds hp

/-- What a Deshredder alone makes of shreds of the blocks. -/
theorem Served.alone (h : Served blocks Codeword config rs version a) (hp : AllSent blocks config a packets)
    (wincode : Wincode E) : ∃ d raws, (Deshredder.new config rs).pushAll packets = .ok (d, raws) ∧
      ((raws.flatMap (Deshredder.batchesOf wincode)).map EntryBatch.key).Nodup ∧
      ∀ e, e ∈ raws.flatMap (Deshredder.batchesOf wincode) ↔ Arrives wincode blocks config.recover packets e := by
  obtain ⟨d, raws, hrun, hD⟩ := h.delivering hp
  refine ⟨d, raws, hrun, ?_, ?_⟩
  · refine (decoded_keys wincode raws).nodup ?_
    refine List.Nodup.map_on ?_ hD.nodup
    intro b hb c hc heq
    exact hD.start_unique hb hc (Prod.mk.inj heq).1 (Prod.mk.inj heq).2
  · intro e
    rw [List.mem_flatMap]
    constructor
    · rintro ⟨b, hb, he⟩
      obtain ⟨hrunb, heq⟩ := (hD.mem_out b).mp hb
      rw [(hD.tracks b.slot).run_iff (hD.slots.slotState b.slot).toAssembling] at hrunb
      exact ⟨b, hrunb, heq, he⟩
    · rintro ⟨b, hb, heq, he⟩
      refine ⟨b, (hD.mem_out b).mpr ⟨?_, heq⟩, he⟩
      rw [(hD.tracks b.slot).run_iff (hD.slots.slotState b.slot).toAssembling]
      exact hb

theorem Served.push_returns (h : Served blocks Codeword config rs version a) {d d' : Deshredder} {raws : List RawBatch}
    {packet : Bytes} (hp : AllSent blocks config a (packets ++ [packet]))
    (hrun : (Deshredder.new config rs).pushAll packets = .ok (d, raws)) (hsame : Deshredder.SameButStats d d')
    (p : Panic) : d'.push wincode packet ≠ .error p := by
  obtain ⟨d₁, raws₁, hall, _⟩ := h.delivering hp
  obtain ⟨d₂, raws₂, raws₃, hrun₂, hstep, _⟩ := Steps.runAll_snoc_ok.mp hall
  have heq := hrun.symm.trans hrun₂
  simp only [Except.ok.injEq, Prod.mk.injEq] at heq
  rw [← heq.1] at hstep
  obtain ⟨d₃, hpush, _⟩ := Deshredder.push_follows wincode hsame hstep
  rw [hpush]
  simp

end

section
variable [Hasher] {capacity sinkCapacity : ℕ} {wincode : Wincode E} {config : Config} {rs : ReedSolomon} {recording : Bool}
  {s s' : Session E} {blocks : ℕ → Block} {Codeword : List Bytes → Prop} {version a : ℕ}

theorem Pipeline.Step.received_subset {s p : Pipeline E} (h : Pipeline.Step capacity wincode s p) :
    s.received ⊆ p.received := by
  cases h with
  | receives h packets hn => exact List.subset_append_left _ _
  | _ => exact List.Subset.refl _

/-- A turn of a waiting worker is no panic. -/
theorem Pipeline.Step.waiting_lives {s p : Pipeline E} (h : Pipeline.Step capacity wincode s p) (hw : s.worker = .waiting) :
    p.worker ≠ .panicked := by
  intro hp
  cases h with
  | panics packet h =>
    rw [hw] at h
    contradiction
  | hands | takes | ends | pushes => contradiction
  | _ =>
    rw [hw] at hp
    contradiction

namespace Session

theorem Move.received_subset (h : Move capacity sinkCapacity wincode s s') : s.pipeline.received ⊆ s'.pipeline.received := by
  rcases h.refines with hstep | heq
  · exact hstep.received_subset
  · rw [heq]
    exact List.Subset.refl _

/-- The worker panics when a push does, and only then. -/
theorem Move.panics (h : Move capacity sinkCapacity wincode s s') (hw : s.pipeline.worker ≠ .panicked)
    (hw' : s'.pipeline.worker = .panicked) : ∃ packet p, s.pipeline.worker = .holding packet ∧
      s.pipeline.deshredder.push wincode packet = .error p := by
  rcases h with hstep | hconsume
  · cases hstep with
    | others p h hsame hlen => exact absurd (hsame.symm.trans hw') hw
    | turns p h hwait hp ho => exact absurd hw' (h.waiting_lives hwait)
    | pushes => contradiction
    | panics packet h ht p hp => exact ⟨packet, p, h, hp⟩
    | _ => exact absurd hw' hw
  · rw [hconsume.pipeline_eq] at hw'
    exact absurd hw' hw

theorem Reachable.pushed_sublist (h : Reachable capacity sinkCapacity wincode config rs recording s)
    (hw : s.pipeline.worker ≠ .panicked) :
    (s.pipeline.pushed ++ s.pipeline.worker.inHand).Sublist s.pipeline.received := by
  obtain ⟨settled, lost, hrec, hsplit, _⟩ := (h.pipeline.ledger hw).split
  rw [hrec]
  exact ((List.sublist_append_left _ _).trans hsplit.kept_sublist).trans (List.sublist_append_left _ _)

/-- Shreds of the blocks do not make the worker panic. -/
theorem Reachable.lives (h : Reachable capacity sinkCapacity wincode config rs recording s)
    (hB : Served blocks Codeword config rs version a) (hsent : AllSent blocks config a s.pipeline.received) :
    s.pipeline.worker ≠ .panicked := by
  induction h with
  | refl => exact fun hw => by cases hw
  | @tail s s' hprev hmove ih =>
    have hlives := ih fun b hb => hsent b (hmove.received_subset hb)
    intro hw'
    obtain ⟨packet, p, hholds, hpanic⟩ := hmove.panics hlives hw'
    have hsub := Reachable.pushed_sublist hprev hlives
    rw [hholds, WorkerAt.inHand] at hsub
    obtain ⟨d, raws, hrun, hsame, _⟩ := (Reachable.pipeline hprev).sunk
    exact hB.push_returns (fun b hb => hsent b (hmove.received_subset (hsub.subset hb))) hrun hsame p hpanic

/-- Nothing was dropped and nothing is underway. -/
theorem Reachable.all_pushed (h : Reachable capacity sinkCapacity wincode config rs recording s)
    (hw : s.pipeline.worker ≠ .panicked) (hc : s.pipeline.caller = .returned)
    (hdropped : s.pipeline.deshredder.stats.dropped = 0) (hlen : s.pipeline.received.length < 2 ^ 64) :
    s.pipeline.pushed = s.pipeline.received := by
  have hL := h.pipeline.ledger hw
  have hdrained := hL.drained h.pipeline.phases hw hc
  refine hdrained.order.eq_of_length ?_
  have htotal := hdrained.total
  rw [hdropped, UInt64.add_zero, hL.packets] at htotal
  have hle := hdrained.order.length_le
  have hnat := congrArg UInt64.toNat htotal
  rwa [UInt64.toNat_ofNat_of_lt' (lt_of_le_of_lt hle hlen), UInt64.toNat_ofNat_of_lt' hlen] at hnat

/-- Whatever the threads do first and whatever is dropped, the worker does not panic, and
what the consumer takes out is the leader's, nothing of it twice. When `shutdown` returns,
no datagram was dropped and the consumer is still there, all that the datagrams are enough
for is with the consumer or in its channel. -/
theorem leader_blocks_arrive (capacity sinkCapacity : ℕ) (wincode : Wincode E) (config : Config) (rs : ReedSolomon)
    (recording : Bool) (blocks : ℕ → Block) (Codeword : List Bytes → Prop) (version a : ℕ)
    (hB : Served blocks Codeword config rs version a)
    (h : Reachable capacity sinkCapacity wincode config rs recording s)
    (hsent : AllSent blocks config a s.pipeline.received) :
    s.pipeline.worker ≠ .panicked ∧ (s.sink.taken.map EntryBatch.key).Nodup ∧
      (∀ e ∈ s.sink.taken, Arrives wincode blocks config.recover s.pipeline.received e) ∧
      (s.pipeline.caller = .returned → s.sink.connected = true → s.pipeline.deshredder.stats.dropped = 0 →
        s.pipeline.received.length < 2 ^ 64 →
        ∀ e, e ∈ s.sink.taken ++ s.sink.queue ↔ Arrives wincode blocks config.recover s.pipeline.received e) := by
  have hlives := h.lives hB hsent
  have hsub : s.pipeline.pushed.Sublist s.pipeline.received :=
    (List.sublist_append_left _ _).trans (h.pushed_sublist hlives)
  obtain ⟨d, raws, hrun, hnodup, hmem⟩ := hB.alone (fun b hb => hsent b (hsub.subset hb)) wincode
  obtain ⟨d', raws', hrun', _, hsunk⟩ := h.pipeline.sunk
  rw [hrun] at hrun'
  simp only [Except.ok.injEq, Prod.mk.injEq] at hrun'
  rw [← hrun'.2] at hsunk
  have hI := h.sinkInv
  have htaken := hI.taken.sublist
  rw [hsunk] at htaken
  refine ⟨hlives, (htaken.map _).nodup hnodup, ?_, ?_⟩
  · intro e he
    exact ((hmem e).mp (htaken.subset he)).mono hsub.subset
  · intro hc hconn hdropped hlen e
    have hfin : s.pipeline.worker = .finished := (h.pipeline.phases.ended hc).resolve_right hlives
    have hout : s.out = [] := by
      by_contra hne
      rw [hI.draining hne] at hfin
      contradiction
    have hall := hI.connected hconn
    rw [hsunk, hout, List.append_nil] at hall
    rw [← hall, hmem, h.all_pushed hlives hc hdropped hlen]

/- The sample session goes on: its consumer takes the first batch, the second gets into
the channel, and `shutdown` returns. -/
theorem Waiting.finishes {s : Session Entry} (h : Waiting s) : ∃ t, SampleReachable t ∧
    t.pipeline.received = samplePackets ∧ t.pipeline.caller = .returned ∧
    t.sink = ⟨[sampleBatch 1], true, [sampleBatch 0]⟩ ∧ t.pipeline.deshredder.stats.dropped = 0 := by
  have hsmall : ∀ b ∈ s.pipeline.received, b.length ≤ maxPacketSize := by
    rw [h.received]
    exact samplePackets_small
  have hconnected : s.sink.connected = true := by rw [h.sink]
  have hqueue : s.sink.queue = [sampleBatch 0] := by rw [h.sink]
  have hsink : (⟨[] ++ [sampleBatch 1], s.sink.connected, s.sink.taken ++ [sampleBatch 0]⟩ : ChannelSink Entry) =
      ⟨[sampleBatch 1], true, [sampleBatch 0]⟩ := by
    rw [h.sink]
    rfl
  have hrun : SampleReachable _ := h.reachable.tail (.inr (.takes s hconnected _ _ hqueue))
  have hrun := hrun.next (.sinks _ _ _ h.out hconnected Nat.one_pos)
  have hrun := hrun.next (.turns _ _ (.ends _ h.worker h.channel h.receiver) h.worker (by simp) rfl)
  have hrun := hrun.next (.others _ _ (.joinsWorker _ h.caller (.inl rfl)) rfl hsmall)
  exact ⟨_, hrun, h.received, rfl, hsink, h.dropped⟩

theorem sample_served : Served sampleBlocks (CarriedCodeword 7 (encodeSegment sampleRun)) ⟨none, 64, true⟩ sampleRs 0 7 where
  lookback := by decide
  range := by decide
  consistent := Deshredder.carriedBlocks_consistent sampleSlot_lt sampleRun_fits
  version := .inl rfl
  rebuilds := carriedRs_rebuilds 7 _

theorem samplePackets_sent : AllSent sampleBlocks ⟨none, 64, true⟩ 7 samplePackets := by
  intro b hb
  simp only [samplePackets, List.mem_cons, List.not_mem_nil, or_false] at hb
  rcases hb with rfl | rfl
  · exact ⟨_, Deshredder.carriedPacket_fromLeader sampleSlot_lt sampleRun_fits (.inl rfl) 64⟩
  · exact ⟨_, Deshredder.carriedPacket_fromLeader sampleSlot_lt sampleRun_fits (.inl rfl) 64⟩

omit [Hasher] in
/-- Two data shreds of a leader go through, and their two batches are what arrives. -/
theorem leader_blocks_arrive_two_batches :
    let : Hasher := sha256Hasher
    ∃ s : Session Entry, SampleReachable s ∧ s.pipeline.received = samplePackets ∧ s.pipeline.caller = .returned ∧
      s.sink.taken = [sampleBatch 0] ∧
      ∀ e, e ∈ [sampleBatch 0, sampleBatch 1] ↔ Arrives layoutDecoder sampleBlocks true samplePackets e := by
  let : Hasher := sha256Hasher
  intro _
  obtain ⟨_, s, hs⟩ := sample_session
  obtain ⟨t, ht, hreceived, hcaller, hsink, hdropped⟩ := hs.finishes
  obtain ⟨_, _, _, hall⟩ := leader_blocks_arrive 1 1 layoutDecoder ⟨none, 64, true⟩ sampleRs true sampleBlocks
    (CarriedCodeword 7 (encodeSegment sampleRun)) 0 7 sample_served ht (by rw [hreceived]; exact samplePackets_sent)
  have harrived := hall hcaller (by rw [hsink]) hdropped (by rw [hreceived]; decide)
  rw [hreceived, hsink] at harrived
  exact ⟨t, ht, hreceived, hcaller, by rw [hsink], harrived⟩

end Session

end
end Deshred
