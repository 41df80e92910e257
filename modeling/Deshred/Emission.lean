import Deshred.Codeword
import Deshred.Window

/-!
# Nothing is emitted twice

Over any sequence of calls the segments of a slot are its complete runs, each once. A
slot that has emitted is only dropped once it is behind the window for good, so
what was emitted stays marked as consumed for as long as it could come again.
-/

namespace Deshred
open Runs

namespace SlotState
variable [Hasher]

/-- What has come out after a sequence of calls. -/
structure ExactlyOnce (stats : Stats) (inputs : List (Shred × Option ReedSolomon)) (state : SlotState)
    (out : List Segment) : Prop where
  lists : Lists state.received.ones state.complete.ones (out.map Segment.shreds)
  disjoint : (out.map Segment.shreds).Pairwise fun a b => Disjoint (Finset.Icc a.1 a.2) (Finset.Icc b.1 b.2)
  consumed : ∀ j, j ∈ state.consumed.ones ↔ ∃ seg ∈ out, seg.shreds.1 ≤ j ∧ j ≤ seg.shreds.2
  emitted : ∀ seg ∈ out, EmittedFrom stats inputs seg

/-- Every complete run comes out exactly once, in the call that completes it. -/
theorem emits_exactly_once (stats : Stats) (inputs : List (Shred × Option ReedSolomon))
    (h : IndexesInRange inputs) :
    ∃ s out, insertAll stats inputs = .ok (s, out) ∧ ExactlyOnce stats inputs s.1 out := by
  obtain ⟨s, out, hok, _⟩ := insertAll_total stats h
  have hrun := runInv hok
  exact ⟨s, out, hok, hrun.lists, hrun.lists.disjoint, hrun.consumed, hrun.emitted⟩

omit [Hasher] in
/-- A set is recovered from its code shreds, then a shred of the next one comes. -/
theorem emits_exactly_once_two_sets :
    let inputs := carriedPlaces.map fun a => @carriedInput sha256Hasher 7 sampleSlot_lt [] nil_fits a.1 a.2
    ∃ s out, @insertAll sha256Hasher Stats.default inputs = .ok (s, out) ∧
      @ExactlyOnce sha256Hasher Stats.default inputs s.1 out ∧ ∀ i, (i, i) ∈ out.map Segment.shreds ↔ i < 33 := by
  let : Hasher := sha256Hasher
  intro inputs
  obtain ⟨s, out, hrun, honce⟩ := emits_exactly_once Stats.default inputs (carriedPlaces_indexes sampleSlot_lt nil_fits)
  obtain ⟨s', out', hrun', _, hout⟩ := carriedPlaces_emits sampleSlot_lt nil_fits Stats.default
  obtain ⟨rfl, rfl⟩ := Prod.mk.inj (Except.ok.inj (hrun.symm.trans hrun'))
  refine ⟨s, out, hrun, honce, fun i => ?_⟩
  rw [List.mem_map]
  constructor
  · rintro ⟨seg, hseg, heq⟩
    obtain ⟨j, hj, rfl⟩ := (hout seg).mp hseg
    exact (Prod.mk.inj heq).1 ▸ hj
  · exact fun hi => ⟨_, (hout _).mpr ⟨i, hi, rfl⟩, rfl⟩

end SlotState

namespace Deshredder
variable {L : ℕ} {d d' : Deshredder} {packet : Bytes} {out out' : List RawBatch}

/-- No two batches share a data shred of a slot. -/
def DisjointBatches (out : List RawBatch) : Prop := out.Pairwise fun a b => a.slot = b.slot →
  Disjoint (Finset.Icc a.shreds.1 a.shreds.2) (Finset.Icc b.shreds.1 b.shreds.2)

/- Every batch so far is of a slot behind the window, or is marked in its slot. -/
structure EmissionInv (L : ℕ) (d : Deshredder) (out : List RawBatch) : Prop extends WindowInv L d where
  nonempty : ∀ b ∈ out, b.shreds.1 ≤ b.shreds.2
  seen : ∀ b ∈ out, b.slot ≤ d.highestSlot ∧ (b.slot + L < d.highestSlot ∨ b.slot ∈ d.slots.keys ∧
    ∀ i, b.shreds.1 ≤ i → i ≤ b.shreds.2 → i ∈ (d.slotState b.slot).consumed.ones)
  disjoint : DisjointBatches out

theorem EmissionInv.new (config : Config) (rs : ReedSolomon) :
    EmissionInv config.slotLookback (new config rs) [] where
  toWindowInv := WindowInv.new config rs
  nonempty := by simp
  seen := by simp
  disjoint := List.Pairwise.nil

theorem settle_highest {slot : ℕ} {state : SlotState} {stats : Stats} {segments : List Segment}
    (h : segments ≠ []) : slot ≤ (d.settle slot state stats segments).highestSlot := by
  rw [settle_highestSlot]
  split
  · exact le_rfl
  · rename_i hadv
    simp only [advances, decide_eq_true_eq, not_and, not_lt] at hadv
    exact hadv h

/-- A slot at or below the highest stays until it is behind the window. -/
theorem settle_stays {slot t : ℕ} {state : SlotState} {stats : Stats} {segments : List Segment}
    (hW : WindowInv L d) (hL : 1 ≤ L) (h4 : 4 * L < 2 ^ 64) (hslot : slot + L < 2 ^ 64)
    (hfresh : d.highestSlot ≤ slot + L) (ht : t = slot ∨ t ∈ d.slots.keys)
    (hle : t ≤ (d.settle slot state stats segments).highestSlot)
    (hwin : (d.settle slot state stats segments).highestSlot ≤ t + L) :
    t ∈ (d.settle slot state stats segments).slots.keys :=
  settle_keeps hW h4 hslot hfresh (kept_of_window hW hslot ht hwin) (by omega)

theorem emitter_stays {slot : ℕ} {state : SlotState} {stats : Stats} {segments : List Segment}
    (hW : WindowInv L d) (hL : 1 ≤ L) (h4 : 4 * L < 2 ^ 64) (hslot : slot + L < 2 ^ 64)
    (hfresh : d.highestSlot ≤ slot + L) (h : segments ≠ []) :
    slot ∈ (d.settle slot state stats segments).slots.keys :=
  settle_stays hW hL h4 hslot hfresh (.inl rfl) (settle_highest h) (settle_highest_le (Nat.le_add_right ..) hfresh)

variable [Hasher]

theorem EmissionInv.pushed (h : EmissionInv L d out) (hL : 1 ≤ L) (h4 : 4 * L < 2 ^ 64)
    (hr : InRange L packet) (hp : Pushed d packet d' out') : EmissionInv L d' (out ++ out') := by
  have hW := h.toWindowInv.pushed hr hp
  have hmono := pushed_highest_le hp
  cases hp with
  | dropped stats _ =>
    rw [List.append_nil]
    exact ⟨hW, h.nonempty, h.seen, h.disjoint⟩
  | inserted x state stats stats' segments hx hins =>
    obtain ⟨hrange, hfresh⟩ := hx.highest_le h.toWindowInv hr
    have hI := h.slots.slotState x.slot
    have hfsi := SlotState.fecSetIndex_of_insert hins
    obtain ⟨_, mid, fresh, _, hone⟩ := SlotState.insert_spec hI hfsi hins
    have hstays : ∀ t, t = x.slot ∨ t ∈ d.slots.keys →
        t ≤ (d.settle x.slot state stats' segments).highestSlot →
        (d.settle x.slot state stats' segments).highestSlot ≤ t + L →
        t ∈ (d.settle x.slot state stats' segments).slots.keys :=
      fun t ht hle hwin => settle_stays h.toWindowInv hL h4 hrange hfresh ht hle hwin
    refine ⟨hW, ?_, ?_, ?_⟩
    · intro b hb
      rcases List.mem_append.mp hb with hb | hb
      · exact h.nonempty b hb
      · obtain ⟨seg, hseg, rfl⟩ := List.mem_map.mp hb
        exact (hone.segments seg hseg).1.le
    · intro b hb
      rcases List.mem_append.mp hb with hb | hb
      · obtain ⟨hle, hold⟩ := h.seen b hb
        refine ⟨hle.trans hmono, ?_⟩
        rcases hold with hstale | ⟨hkey, hcons⟩
        · exact .inl (by omega)
        · by_cases hwin : (d.settle x.slot state stats' segments).highestSlot ≤ b.slot + L
          · have hheld := hstays b.slot (.inr hkey) (hle.trans hmono) hwin
            refine .inr ⟨hheld, ?_⟩
            rw [settle_slotState hheld]
            split
            · rename_i heq
              intro i h1 h2
              rw [hone.consumed_iff hI, ← heq]
              exact .inl (hcons i h1 h2)
            · exact hcons
          · exact .inl (by omega)
      · obtain ⟨seg, hseg, rfl⟩ := List.mem_map.mp hb
        have hne := List.ne_nil_of_mem hseg
        have hheld : x.slot ∈ (d.settle x.slot state stats' segments).slots.keys :=
          emitter_stays h.toWindowInv hL h4 hrange hfresh hne
        refine ⟨settle_highest hne, .inr ⟨hheld, ?_⟩⟩
        intro i h1 h2
        show i ∈ ((d.settle x.slot state stats' segments).slotState x.slot).consumed.ones
        rw [settle_slotState hheld, if_pos rfl, hone.consumed_iff hI]
        exact .inr ⟨seg, hseg, h1, h2⟩
    · rw [DisjointBatches, List.pairwise_append]
      refine ⟨h.disjoint, ?_, ?_⟩
      · rw [List.pairwise_map]
        apply hone.segments_disjoint.imp
        intro a b hd _
        exact hd
      · intro a ha b hb hab
        obtain ⟨seg, hseg, rfl⟩ := List.mem_map.mp hb
        obtain ⟨_, hold⟩ := h.seen a ha
        have hslot : a.slot = x.slot := hab
        rcases hold with hstale | ⟨_, hcons⟩
        · omega
        · rw [Finset.disjoint_left]
          intro i hia hib
          have hia := Finset.mem_Icc.mp hia
          have hib := Finset.mem_Icc.mp hib
          rw [hslot] at hcons
          exact hone.unconsumed hI hfsi hseg hib.1 hib.2 (hcons i hia.1 hia.2)

theorem pushAll_emission {config : Config} {rs : ReedSolomon} {packets : List Bytes} (hL : 1 ≤ config.slotLookback)
    (h4 : 4 * config.slotLookback < 2 ^ 64) (hr : ∀ b ∈ packets, InRange config.slotLookback b)
    (h : (new config rs).pushAll packets = .ok (d, out)) : EmissionInv config.slotLookback d out := by
  refine Steps.runAll_induct (P := fun is d os => (∀ b ∈ is, InRange config.slotLookback b) →
    EmissionInv config.slotLookback d os) (fun _ => EmissionInv.new config rs) ?_ h hr
  intro is s os i s' out _ hP hstep hin
  exact (hP fun b hb => hin b (by simp [hb])).pushed hL h4 (hin i (by simp)) (pushRaw_cases hstep)

/-- The window stands at the slot of some batch. -/
theorem pushAll_highest {config : Config} {rs : ReedSolomon} {packets : List Bytes}
    (h : (new config rs).pushAll packets = .ok (d, out)) :
    d.highestSlot = 0 ∨ ∃ b ∈ out, b.slot = d.highestSlot := by
  refine Steps.runAll_induct (P := fun _ (d : Deshredder) (out : List RawBatch) =>
    d.highestSlot = 0 ∨ ∃ b ∈ out, b.slot = d.highestSlot) (.inl rfl) ?_ h
  intro is s os packet s' out _ hP hstep
  have hold : s'.highestSlot = s.highestSlot → s'.highestSlot = 0 ∨ ∃ b ∈ os ++ out, b.slot = s'.highestSlot := by
    intro heq
    rw [heq]
    exact hP.imp_right fun ⟨b, hb, hslot⟩ => ⟨b, List.mem_append_left _ hb, hslot⟩
  cases pushRaw_cases hstep with
  | dropped stats _ => exact hold rfl
  | inserted x state stats stats' segments hx hins =>
    cases hadv : s.advances x.slot segments with
    | false => exact hold (by rw [settle_highestSlot, hadv, if_neg Bool.false_ne_true])
    | true =>
      rw [settle_highestSlot, hadv, if_pos rfl]
      simp only [advances, decide_eq_true_eq] at hadv
      obtain ⟨seg, hseg⟩ := List.exists_mem_of_ne_nil segments hadv.1
      exact .inr ⟨rawBatch x.slot seg, List.mem_append_right _ (List.mem_map.mpr ⟨seg, hseg, rfl⟩), rfl⟩

/-- No data shred is ever emitted twice. -/
theorem batches_disjoint (config : Config) (rs : ReedSolomon) (packets : List Bytes)
    (hL : 1 ≤ config.slotLookback) (h4 : 4 * config.slotLookback < 2 ^ 64)
    (hr : ∀ b ∈ packets, InRange config.slotLookback b)
    (h : (new config rs).pushAll packets = .ok (d, out)) :
    (∀ b ∈ out, b.shreds.1 ≤ b.shreds.2) ∧ DisjointBatches out := by
  have hE := pushAll_emission hL h4 hr h
  exact ⟨hE.nonempty, hE.disjoint⟩

omit [Hasher] in
/-- A run of one shred, and the same datagram again. -/
theorem batches_disjoint_replay :
    let packets := [blankPacket 7 flagDataComplete, blankPacket 7 flagDataComplete]
    ∃ d out, @pushAll sha256Hasher (new ⟨none, 64, true⟩ ReedSolomon.failing) packets = .ok (d, out) ∧
      (∀ b ∈ out, b.shreds.1 ≤ b.shreds.2) ∧ DisjointBatches out := by
  intro packets
  obtain ⟨x, hx, hk, _⟩ := parse_blankPacket (show 7 < 2 ^ 64 by decide) (.inr rfl)
  have hsame : ∀ b ∈ packets, b = blankPacket 7 flagDataComplete := by simp [packets]
  obtain ⟨d, out, hd⟩ := @pushAll_data_returns sha256Hasher ⟨none, 64, true⟩ ReedSolomon.failing packets
    (fun b hb => ⟨x, by rw [hsame b hb]; exact hx, hk⟩)
  refine ⟨d, out, hd, @batches_disjoint _ _ sha256Hasher ⟨none, 64, true⟩ ReedSolomon.failing packets (by decide)
    (by decide) ?_ hd⟩
  intro b hb
  rw [hsame b hb]
  exact blankPacket_inRange (by decide) (.inr rfl)

end Deshredder
end Deshred
