import Deshred.Lib.Projection
import Deshred.SlotRuns
import Deshred.Traceless

/-!
# Slots do not disturb each other

A Deshredder multiplexes the slots of a stream. Seen from one slot, every run of it is
a run of that `SlotState` alone, on the shreds of the slot and on its evictions. As
long as the slot is not evicted, the other slots, garbage among them, change nothing
of what comes out for it.
-/

namespace Deshred

/- What can happen to a slot. -/
inductive SlotEvent where
  | shred (x : Shred)
  | evict

namespace SlotState
variable [Hasher]

/-- A slot alone: it takes in its shreds, and an eviction makes it forget everything. -/
def lifeStep (rs : Option ReedSolomon) (s : SlotState × Stats) :
    SlotEvent → Except Panic ((SlotState × Stats) × List Segment)
  | .shred x => insertStep s (x, rs)
  | .evict => .ok ((SlotState.empty, s.2), [])

theorem lifeStep_shreds (rs : Option ReedSolomon) (t : SlotState × Stats) (xs : List Shred) :
    Steps.runAll (lifeStep rs) t (xs.map .shred) = Steps.runAll insertStep t (xs.map fun x => (x, rs)) := by
  rw [Steps.runAll_map, Steps.runAll_map]
  rfl

/-- The counters a call starts from make no difference to what it returns. -/
theorem insert_other_stats {state state' : SlotState} {x : Shred} {rs : Option ReedSolomon} {stats stats' : Stats}
    {out : List Segment} (h : state.insert x rs stats = .ok (state', stats', out)) (stats₂ : Stats) :
    ∃ stats₂', state.insert x rs stats₂ = .ok (state', stats₂', out) := by
  obtain ⟨p, hp, _⟩ | ⟨a, s, s₂, b, h₁, h₂⟩ := uncounted_cases (insert_uncounted state x rs stats stats₂)
  · rw [hp] at h
    contradiction
  · rw [h₁] at h
    simp only [Except.ok.injEq, Prod.mk.injEq] at h
    obtain ⟨rfl, _, rfl⟩ := h
    exact ⟨s₂, h₂⟩

end SlotState

/- The run behind a batch, if it is of slot `s`. -/
def RawBatch.segmentIn (s : ℕ) (b : RawBatch) : Option Segment :=
  if b.slot = s then some ⟨b.shreds, b.bytes, b.lastInSlot⟩ else none

namespace Deshredder
variable [Hasher] {d d' : Deshredder} {packet : Bytes} {out : List RawBatch} {s : ℕ}

def arrival (s : ℕ) (x : Shred) : List SlotEvent := if x.slot = s then [.shred x] else []

/- The slot was there, or the shred created it, and it is gone now. -/
def eviction (s : ℕ) (d : Deshredder) (x : Shred) (d' : Deshredder) : List SlotEvent :=
  if (x.slot = s ∨ s ∈ d.slots.keys) ∧ s ∉ d'.slots.keys then [.evict] else []

/-- What a push does to slot `s`: its shred goes in, and the slot may be evicted after that. -/
def slotEvents (s : ℕ) (d : Deshredder) (packet : Bytes) : List SlotEvent :=
  match Shred.parse packet with
  | .error _ => []
  | .ok x =>
    if d.wrongVersion x ∨ d.isStale x then []
    else
      match d.pushRaw packet with
      | .error _ => []
      | .ok (d', _) => arrival s x ++ eviction s d x d'

omit [Hasher] in
theorem segmentIn_same (s : ℕ) (segments : List Segment) :
    (segments.map (rawBatch s)).filterMap (RawBatch.segmentIn s) = segments := by
  rw [List.filterMap_map]
  have hsome : RawBatch.segmentIn s ∘ rawBatch s = some := by
    funext segment
    simp [RawBatch.segmentIn, rawBatch]
  rw [hsome, List.filterMap_some]

omit [Hasher] in
theorem segmentIn_other {t : ℕ} (h : t ≠ s) (segments : List Segment) :
    (segments.map (rawBatch t)).filterMap (RawBatch.segmentIn s) = [] := by
  rw [List.filterMap_map, List.filterMap_eq_nil_iff]
  intro segment _
  simp [RawBatch.segmentIn, rawBatch, h]

theorem slotEvents_dropped (h : ∀ x, ¬ Admitted d packet x) : slotEvents s d packet = [] := by
  unfold slotEvents
  split
  · rfl
  · rename_i x hp
    split
    · rfl
    · rename_i hno
      simp only [not_or, Bool.not_eq_true] at hno
      exact absurd ⟨hp, hno.1, hno.2⟩ (h x)

theorem slotEvents_admitted {x : Shred} (hx : Admitted d packet x) (hok : d.pushRaw packet = .ok (d', out)) :
    slotEvents s d packet = arrival s x ++ eviction s d x d' := by
  unfold slotEvents
  simp [hx.parsed, hx.version, hx.fresh, hok]

/-- One push, seen from slot `s`. -/
theorem slot_follows {t : SlotState × Stats} (ht : d.slotState s = t.1) (hok : d.pushRaw packet = .ok (d', out)) :
    ∃ t', Steps.runAll (SlotState.lifeStep d.recoverWith) t (slotEvents s d packet) =
      .ok (t', out.filterMap (RawBatch.segmentIn s)) ∧ d'.slotState s = t'.1 := by
  have hp := pushRaw_cases hok
  cases hp with
  | dropped stats h =>
    rw [slotEvents_dropped h]
    exact ⟨t, rfl, ht⟩
  | inserted x state stats stats' segments hx hins =>
    rw [slotEvents_admitted hx hok]
    -- what the shred does, before any eviction
    have hshred : ∃ t₁, Steps.runAll (SlotState.lifeStep d.recoverWith) t (arrival s x) =
        .ok (t₁, (segments.map (rawBatch x.slot)).filterMap (RawBatch.segmentIn s)) ∧
        t₁.1 = if s = x.slot then state else d.slotState s := by
      unfold arrival
      by_cases hs : x.slot = s
      · subst hs
        rw [ht] at hins
        obtain ⟨stats₂, hins₂⟩ := SlotState.insert_other_stats hins t.2
        refine ⟨(state, stats₂), ?_, by simp⟩
        rw [if_pos rfl, segmentIn_same, Steps.runAll_singleton_ok]
        exact SlotState.insertStep_ok.mpr hins₂
      · rw [if_neg hs, segmentIn_other hs, if_neg (Ne.symm hs)]
        exact ⟨t, rfl, ht.symm⟩
    obtain ⟨t₁, hrun, h₁⟩ := hshred
    generalize hd' : d.settle x.slot state stats' segments = d'
    have hevict : ∃ t', Steps.runAll (SlotState.lifeStep d.recoverWith) t₁ (eviction s d x d') = .ok (t', []) ∧
        d'.slotState s = t'.1 := by
      unfold eviction
      by_cases hheld : s ∈ d'.slots.keys
      · rw [if_neg (fun hgone => hgone.2 hheld)]
        refine ⟨t₁, rfl, ?_⟩
        rw [← hd'] at hheld ⊢
        rw [settle_slotState hheld, h₁]
      · rw [slotState_of_not_held hheld]
        by_cases hin : x.slot = s ∨ s ∈ d.slots.keys
        · rw [if_pos ⟨hin, hheld⟩]
          exact ⟨(SlotState.empty, t₁.2), rfl, rfl⟩
        · rw [if_neg (fun hgone => hin hgone.1)]
          refine ⟨t₁, rfl, ?_⟩
          rw [not_or] at hin
          rw [h₁, if_neg (Ne.symm hin.1), slotState_of_not_held hin.2]
    obtain ⟨t', hrun', h'⟩ := hevict
    exact ⟨t', Steps.runAll_append_ok.mpr ⟨t₁, _, [], hrun, hrun', (List.append_nil _).symm⟩, h'⟩

theorem pushed_recoverWith (hok : d.pushRaw packet = .ok (d', out)) : d'.recoverWith = d.recoverWith := by
  obtain ⟨hconfig, hrs⟩ := pushed_config (pushRaw_cases hok)
  rw [recoverWith, recoverWith, hconfig, hrs]

/-- A run, seen from slot `s`. -/
theorem slot_follows_all {packets : List Bytes} {t : SlotState × Stats} (ht : d.slotState s = t.1)
    (hrun : d.pushAll packets = .ok (d', out)) :
    ∃ t', Steps.runAll (SlotState.lifeStep d.recoverWith) t (Steps.shareOf pushRaw (slotEvents s) d packets) =
      .ok (t', out.filterMap (RawBatch.segmentIn s)) ∧ d'.slotState s = t'.1 := by
  have hfollow : ∀ (d₁ : Deshredder) (t : SlotState × Stats) packet d₂ out,
      (d₁.slotState s = t.1 ∧ d₁.recoverWith = d.recoverWith) → d₁.pushRaw packet = .ok (d₂, out) →
      ∃ t', Steps.runAll (SlotState.lifeStep d.recoverWith) t (slotEvents s d₁ packet) =
        .ok (t', out.filterMap (RawBatch.segmentIn s)) ∧
        d₂.slotState s = t'.1 ∧ d₂.recoverWith = d.recoverWith := by
    intro d₁ t packet d₂ out h hok
    obtain ⟨t', hpart, h'⟩ := slot_follows h.1 hok
    rw [h.2] at hpart
    exact ⟨t', hpart, h', (pushed_recoverWith hok).trans h.2⟩
  obtain ⟨t', hpart, h', _⟩ := Steps.runAll_share hfollow ⟨ht, rfl⟩ hrun
  exact ⟨t', hpart, h'⟩

/-- Every run of a Deshredder is, for each slot, a run of that slot alone: on the shreds
that reached it, with the evictions where they happened. -/
theorem slot_refines (config : Config) (rs : ReedSolomon) (packets : List Bytes) (s : ℕ) (stats : Stats)
    (hrun : (new config rs).pushAll packets = .ok (d, out)) :
    ∃ stats', Steps.runAll (SlotState.lifeStep (new config rs).recoverWith) (SlotState.empty, stats)
      (Steps.shareOf pushRaw (slotEvents s) (new config rs) packets) =
        .ok ((d.slotState s, stats'), out.filterMap (RawBatch.segmentIn s)) := by
  have hempty : (new config rs).slotState s = (SlotState.empty, stats).1 := rfl
  obtain ⟨t', hpart, h'⟩ := slot_follows_all hempty hrun
  refine ⟨t'.2, ?_⟩
  rw [h']
  exact hpart

theorem Raised.segments {slot : ℕ} (h : Raised d packet slot d' out) : out.filterMap (RawBatch.segmentIn slot) ≠ [] := by
  obtain ⟨b, hb⟩ := List.exists_mem_of_ne_nil out h.emits
  have hsegment : RawBatch.segmentIn slot b = some ⟨b.shreds, b.bytes, b.lastInSlot⟩ := if_pos (h.batches b hb)
  exact List.ne_nil_of_mem (List.mem_filterMap.mpr ⟨b, hb, hsegment⟩)

/-- A run of such a shred and one of a later slot brings out both. -/
theorem two_blanks_emit {slot slot' : ℕ} (h0 : 0 < slot) (hlt : slot < slot') (hs : slot' + 64 < 2 ^ 64) : ∃ d out,
    (new ⟨none, 64, true⟩ ReedSolomon.failing).pushAll
      [blankPacket slot flagDataComplete, blankPacket slot' flagDataComplete] = .ok (d, out) ∧
      d.highestSlot = slot' ∧ WindowInv 64 d ∧ out.filterMap (RawBatch.segmentIn slot) ≠ [] ∧
      out.filterMap (RawBatch.segmentIn slot') ≠ [] := by
  obtain ⟨d, out, d', out', hR, hR', _, hW⟩ := two_blanks_raise h0 hlt hs
  refine ⟨d', out ++ out', Steps.runAll_cons_ok.mpr ⟨_, _, _, hR.pushed, Steps.runAll_singleton_ok.mpr hR'.pushed, rfl⟩,
    hR'.highest, hW, ?_, ?_⟩
  · rw [List.filterMap_append]
    exact List.append_ne_nil_of_left_ne_nil hR.segments _
  · rw [List.filterMap_append]
    exact List.append_ne_nil_of_right_ne_nil _ hR'.segments

omit [Hasher] in
/-- Slot 7 hands out a run and is evicted when slot 100 comes up. -/
theorem slot_refines_evicted :
    let packets := [blankPacket 7 flagDataComplete, blankPacket 100 flagDataComplete]
    ∃ d out stats', @pushAll sha256Hasher (new ⟨none, 64, true⟩ ReedSolomon.failing) packets = .ok (d, out) ∧
      7 ∉ d.slots.keys ∧ out.filterMap (RawBatch.segmentIn 7) ≠ [] ∧ out.filterMap (RawBatch.segmentIn 100) ≠ [] ∧
      Steps.runAll (@SlotState.lifeStep sha256Hasher (some ReedSolomon.failing)) (SlotState.empty, Stats.default)
        (Steps.shareOf (@pushRaw sha256Hasher) (@slotEvents sha256Hasher 7) (new ⟨none, 64, true⟩ ReedSolomon.failing)
          packets) = .ok ((SlotState.empty, stats'), out.filterMap (RawBatch.segmentIn 7)) := by
  let : Hasher := sha256Hasher
  intro packets
  obtain ⟨d, out, hrun, hhighest, hW, hseven, hhundred⟩ :=
    two_blanks_emit (show 0 < 7 by decide) (show 7 < 100 by decide) (show 100 + 64 < 2 ^ 64 by decide)
  have hgone : 7 ∉ d.slots.keys := by
    intro h7
    have hwindow := hW.window 7 h7
    rw [hhighest] at hwindow
    omega
  obtain ⟨stats', h⟩ := slot_refines ⟨none, 64, true⟩ ReedSolomon.failing packets 7 Stats.default hrun
  rw [slotState_of_not_held hgone] at h
  exact ⟨d, out, stats', hrun, hgone, hseven, hhundred, h⟩

/-! ### A slot that is left in peace -/

/- The shred of a datagram, if it passes the version check. -/
def rightVersion (config : Config) (packet : Bytes) : Option Shred :=
  match Shred.parse packet with
  | .error _ => none
  | .ok x => if config.shredVersion.any fun v => v ≠ x.version then none else some x

def shredsOf (config : Config) (s : ℕ) (packets : List Bytes) : List Shred :=
  (packets.filterMap (rightVersion config)).filter fun x => x.slot = s

def namedSlots (config : Config) (packets : List Bytes) : Finset ℕ :=
  ((packets.filterMap (rightVersion config)).map fun x => x.slot).toFinset

omit [Hasher] in
theorem rightVersion_iff {x : Shred} : rightVersion d.config packet = some x ↔
    Shred.parse packet = .ok x ∧ d.wrongVersion x = false := by
  unfold rightVersion wrongVersion
  cases Shred.parse packet with
  | error e => simp
  | ok y =>
    simp only [Except.ok.injEq]
    constructor
    · intro h
      split at h
      · contradiction
      · rename_i hno
        cases h
        exact ⟨rfl, by simpa using hno⟩
    · rintro ⟨rfl, h⟩
      rw [if_neg (by rw [h]; exact Bool.false_ne_true)]

omit [Hasher] in
/-- Slot `s` has room when few slots below it are held, and is not behind the window. -/
theorem settle_leaves {slot : ℕ} {state : SlotState} {stats : Stats} {segments : List Segment} {L : ℕ}
    (hL : d.config.slotLookback = L) (hs : s + L < 2 ^ 64) (hin : s ∈ insert slot d.slots.keys)
    (hhigh : (d.settle slot state stats segments).highestSlot ≤ s + L)
    (hroom : ((insert slot d.slots.keys).filter (· ≤ s)).card ≤ wrappingMul 4 L) :
    s ∈ (d.settle slot state stats segments).slots.keys := by
  have hsub : (d.kept slot state segments).keys ⊆ insert slot d.slots.keys := by
    intro t ht
    rw [OrdMap.mem_keys] at ht
    rw [← OrdMap.insert_keys d.slots slot state, OrdMap.mem_keys]
    rcases @kept_find d slot state segments t with hf | hf
    · rwa [hf] at ht
    · rw [hf] at ht
      contradiction
  have hkept : s ∈ (d.kept slot state segments).keys := by
    rw [← OrdMap.insert_keys d.slots slot state] at hin
    unfold kept
    split
    · rename_i hadv
      rw [settle_highestSlot, if_pos hadv] at hhigh
      rw [prune, OrdMap.popFirstWhile_keys]
      refine ⟨hin, s, hin, le_rfl, ?_⟩
      rw [hL, wrappingAdd_of_lt hs, decide_eq_false_iff_not]
      omega
    · exact hin
  rw [settle_keys, hL]
  exact ⟨hkept, (Finset.card_le_card (Finset.filter_subset_filter _ hsub)).trans hroom⟩

/- What a push must not do, for slot `s` to be left in peace. -/
structure Leaves (s : ℕ) (d : Deshredder) (packet : Bytes) (d' : Deshredder) : Prop where
  range : s + d.config.slotLookback < 2 ^ 64
  window : d'.highestSlot ≤ s + d.config.slotLookback
  room : ((d.slots.keys ∪ namedSlots d.config [packet]).filter (· ≤ s)).card ≤ wrappingMul 4 d.config.slotLookback

omit [Hasher] in
theorem Admitted.named {x : Shred} (hx : Admitted d packet x) :
    d.slots.keys ∪ namedSlots d.config [packet] = insert x.slot d.slots.keys := by
  have hv := rightVersion_iff.mpr ⟨hx.parsed, hx.version⟩
  ext t
  simp [namedSlots, hv]

/-- A push that leaves slot `s` in peace brings it its shred, if it is one of the slot's. -/
theorem Leaves.events (h : Leaves s d packet d') (hok : d.pushRaw packet = .ok (d', out)) :
    slotEvents s d packet = (shredsOf d.config s [packet]).map .shred := by
  have hp := pushRaw_cases hok
  cases hp with
  | dropped stats hno =>
    rw [slotEvents_dropped hno]
    suffices hnone : shredsOf d.config s [packet] = [] by rw [hnone, List.map_nil]
    rw [shredsOf, List.filter_eq_nil_iff]
    intro x hmem hs
    obtain ⟨b, hb, hx⟩ := List.mem_filterMap.mp hmem
    rw [List.mem_singleton] at hb
    subst hb
    obtain ⟨hparse, hversion⟩ := rightVersion_iff.mp hx
    refine hno x ⟨hparse, hversion, ?_⟩
    have hwindow := h.window
    have hrange := h.range
    rw [decide_eq_true_eq] at hs
    rw [isStale, hs, wrappingAdd_of_lt hrange, decide_eq_false_iff_not]
    exact Nat.not_lt.mpr hwindow
  | inserted x state stats stats' segments hx hins =>
    rw [slotEvents_admitted hx hok]
    have hv := rightVersion_iff.mpr ⟨hx.parsed, hx.version⟩
    have hshreds : (shredsOf d.config s [packet]).map SlotEvent.shred = arrival s x := by
      simp only [shredsOf, List.filterMap_cons, hv, List.filterMap_nil, List.filter_cons, List.filter_nil, arrival,
        decide_eq_true_eq]
      split
      · rfl
      · rfl
    have hevict : eviction s d x (d.settle x.slot state stats' segments) = [] := by
      refine if_neg fun hgone => hgone.2 ?_
      have hroom := h.room
      rw [hx.named] at hroom
      refine settle_leaves rfl h.range ?_ h.window hroom
      rw [Finset.mem_insert]
      exact hgone.1.imp Eq.symm id
    rw [hevict, List.append_nil, hshreds]

theorem pushAll_highest_le {packets : List Bytes} (hrun : d.pushAll packets = .ok (d', out)) :
    d.highestSlot ≤ d'.highestSlot := by
  refine Steps.runAll_induct (P := fun _ (d' : Deshredder) (_ : List RawBatch) => d.highestSlot ≤ d'.highestSlot)
    le_rfl ?_ hrun
  exact fun is d₁ os b d₂ o _ hle hstep => hle.trans (pushed_highest_le (pushRaw_cases hstep))

theorem pushed_keys (hok : d.pushRaw packet = .ok (d', out)) :
    d'.slots.keys ⊆ d.slots.keys ∪ namedSlots d.config [packet] := by
  intro t ht
  have hp := pushRaw_cases hok
  cases hp with
  | dropped stats hno => exact Finset.mem_union_left _ ht
  | inserted x state stats stats' segments hx hins =>
    rw [hx.named, Finset.mem_insert]
    exact Finset.mem_insert.mp (settle_keys_subset ht)

omit [Hasher] in
theorem namedSlots_cons (config : Config) (packet : Bytes) (packets : List Bytes) :
    namedSlots config (packet :: packets) = namedSlots config [packet] ∪ namedSlots config packets := by
  rw [← List.singleton_append]
  simp only [namedSlots, List.filterMap_append, List.map_append, List.toFinset_append]

omit [Hasher] in
theorem shredsOf_cons (config : Config) (s : ℕ) (packet : Bytes) (packets : List Bytes) :
    shredsOf config s (packet :: packets) = shredsOf config s [packet] ++ shredsOf config s packets := by
  rw [← List.singleton_append]
  simp only [shredsOf, List.filterMap_append, List.filter_append]

/-- A run that leaves slot `s` in peace brings it its shreds and nothing else. -/
theorem shareOf_left {packets : List Bytes} (hs : s + d.config.slotLookback < 2 ^ 64)
    (hroom : ((d.slots.keys ∪ namedSlots d.config packets).filter (· ≤ s)).card ≤ wrappingMul 4 d.config.slotLookback)
    (hrun : d.pushAll packets = .ok (d', out)) (hwindow : d'.highestSlot ≤ s + d.config.slotLookback) :
    Steps.shareOf pushRaw (slotEvents s) d packets = (shredsOf d.config s packets).map .shred := by
  induction packets generalizing d out with
  | nil => rfl
  | cons packet packets ih =>
    obtain ⟨d₁, out₁, outs, hstep, hrest, _⟩ := Steps.runAll_cons_ok.mp hrun
    have hconfig := (pushed_config (pushRaw_cases hstep)).1
    rw [namedSlots_cons, ← Finset.union_assoc] at hroom
    have hfirst : Leaves s d packet d₁ := by
      refine ⟨hs, (pushAll_highest_le hrest).trans hwindow, le_trans (Finset.card_le_card ?_) hroom⟩
      exact Finset.filter_subset_filter _ Finset.subset_union_left
    have hroom' : ((d₁.slots.keys ∪ namedSlots d.config packets).filter (· ≤ s)).card ≤
        wrappingMul 4 d.config.slotLookback := by
      refine le_trans (Finset.card_le_card (Finset.filter_subset_filter _ ?_)) hroom
      exact Finset.union_subset_union_left (pushed_keys hstep)
    have htail : Steps.shareOf pushRaw (slotEvents s) d₁ packets = (shredsOf d.config s packets).map .shred := by
      rw [← hconfig] at hs hroom' hwindow ⊢
      exact ih hs hroom' hrest hwindow
    rw [Steps.shareOf_cons hstep, hfirst.events hstep, htail, shredsOf_cons d.config s packet packets,
      List.map_append]

omit [Hasher] in
theorem new_keys_union (config : Config) (rs : ReedSolomon) (slots : Finset ℕ) :
    (new config rs).slots.keys ∪ slots = slots := Finset.empty_union slots

/-- What a run that leaves slot `s` in peace makes of it. -/
theorem slot_left {packets : List Bytes} {t : SlotState × Stats} (ht : d.slotState s = t.1)
    (hs : s + d.config.slotLookback < 2 ^ 64)
    (hroom : ((d.slots.keys ∪ namedSlots d.config packets).filter (· ≤ s)).card ≤ wrappingMul 4 d.config.slotLookback)
    (hrun : d.pushAll packets = .ok (d', out)) (hwindow : d'.highestSlot ≤ s + d.config.slotLookback) :
    ∃ stats', Steps.runAll SlotState.insertStep t ((shredsOf d.config s packets).map fun x => (x, d.recoverWith)) =
      .ok ((d'.slotState s, stats'), out.filterMap (RawBatch.segmentIn s)) := by
  obtain ⟨t', hpart, h'⟩ := slot_follows_all ht hrun
  rw [shareOf_left hs hroom hrun hwindow, SlotState.lifeStep_shreds] at hpart
  refine ⟨t'.2, ?_⟩
  rw [h']
  exact hpart

omit [Hasher] in
theorem namedSlots_card_le (config : Config) (packets : List Bytes) :
    (namedSlots config packets).card ≤ packets.length := by
  refine (List.toFinset_card_le _).trans ?_
  rw [List.length_map]
  exact List.length_filterMap_le _ _

end Deshredder
end Deshred
