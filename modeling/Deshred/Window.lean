import Deshred.Deshredder
import Deshred.Wire

/-!
# The slots a Deshredder holds

Every slot state it holds meets the slot invariant. As long as no addition on slot
numbers wraps, a slot is pruned exactly when it falls behind the window, and the
memory bound only reaches slots far ahead of it.
-/

namespace Deshred

theorem wrappingAdd_of_lt {a b : ℕ} (h : a + b < 2 ^ 64) : wrappingAdd a b = a + b := Nat.mod_eq_of_lt h
theorem wrappingMul_of_lt {a b : ℕ} (h : a * b < 2 ^ 64) : wrappingMul a b = a * b := Nat.mod_eq_of_lt h

namespace Deshredder

def SlotsInv (d : Deshredder) : Prop := ∀ t state, d.slots.find t = some state → state.SlotInv

theorem SlotsInv.new (config : Config) (rs : ReedSolomon) : SlotsInv (new config rs) := by
  intro t state h
  contradiction

theorem SlotsInv.slotState {d : Deshredder} (h : SlotsInv d) (t : ℕ) : (d.slotState t).SlotInv := by
  unfold Deshredder.slotState
  cases hf : d.slots.find t with
  | none => exact SlotState.SlotInv.empty
  | some state => exact h t state hf

section
variable {d : Deshredder} {slot : ℕ} {state : SlotState} {stats : Stats} {segments : List Segment} {t : ℕ}

/- The slots between the two eviction loops. -/
def kept (d : Deshredder) (slot : ℕ) (state : SlotState) (segments : List Segment) : OrdMap ℕ SlotState :=
  if d.advances slot segments then d.prune slot (d.slots.insert slot state) else d.slots.insert slot state

theorem prune_find (slots : OrdMap ℕ SlotState) :
    (d.prune slot slots).find t = slots.find t ∨ (d.prune slot slots).find t = none := by
  simp only [prune, OrdMap.popFirstWhile_find]
  split
  · exact .inl rfl
  · exact .inr rfl

theorem kept_find : (d.kept slot state segments).find t = (d.slots.insert slot state).find t ∨
    (d.kept slot state segments).find t = none := by
  unfold kept
  split
  · exact prune_find _
  · exact .inl rfl

theorem settle_find (d : Deshredder) (slot : ℕ) (state : SlotState) (stats : Stats) (segments : List Segment)
    (t : ℕ) : (d.settle slot state stats segments).slots.find t = (d.slots.insert slot state).find t ∨
    (d.settle slot state stats segments).slots.find t = none := by
  have hdef : (d.settle slot state stats segments).slots.find t =
      (d.bound (d.kept slot state segments)).find t := rfl
  rw [hdef, bound, OrdMap.popLastUntil_find]
  split
  · exact kept_find
  · exact .inr rfl

theorem settle_held (h : t ∈ (d.settle slot state stats segments).slots.keys) :
    (d.settle slot state stats segments).slots.find t = (d.slots.insert slot state).find t := by
  rcases d.settle_find slot state stats segments t with hf | hf
  · exact hf
  · rw [OrdMap.mem_keys, hf] at h
    contradiction

theorem settle_slotState (h : t ∈ (d.settle slot state stats segments).slots.keys) :
    (d.settle slot state stats segments).slotState t = if t = slot then state else d.slotState t := by
  unfold Deshredder.slotState
  rw [settle_held h]
  by_cases ht : t = slot
  · rw [if_pos ht, ht, OrdMap.insert_find_self, Option.getD_some]
  · rw [if_neg ht, OrdMap.insert_find_ne _ _ ht]

theorem settle_keys_subset (h : t ∈ (d.settle slot state stats segments).slots.keys) : t ∈ insert slot d.slots.keys := by
  have hfind := settle_held h
  rw [OrdMap.mem_keys, hfind, ← OrdMap.mem_keys, OrdMap.insert_keys] at h
  exact h

theorem slotState_of_not_held (h : t ∉ d.slots.keys) : d.slotState t = SlotState.empty := by
  rw [Deshredder.slotState, (OrdMap.find_eq_none_iff ..).mpr h, Option.getD_none]

theorem mem_keys_of_received {i : ℕ} (h : i ∈ (d.slotState t).received.ones) : t ∈ d.slots.keys := by
  by_contra hgone
  rw [slotState_of_not_held hgone] at h
  simp [SlotState.empty] at h

theorem SlotsInv.settle (h : SlotsInv d) (hs : state.SlotInv) :
    SlotsInv (d.settle slot state stats segments) := by
  intro t state' hf
  rcases d.settle_find slot state stats segments t with heq | heq
  · rw [heq] at hf
    by_cases ht : t = slot
    · rw [ht, OrdMap.insert_find_self, Option.some.injEq] at hf
      rw [← hf]
      exact hs
    · rw [OrdMap.insert_find_ne _ _ ht] at hf
      exact h t state' hf
  · rw [heq] at hf
    contradiction

theorem settle_highestSlot (d : Deshredder) (slot : ℕ) (state : SlotState) (stats : Stats) (segments : List Segment) :
    (d.settle slot state stats segments).highestSlot = if d.advances slot segments then slot else d.highestSlot := rfl

theorem settle_highest_le {a : ℕ} (hslot : slot ≤ a) (h : d.highestSlot ≤ a) :
    (d.settle slot state stats segments).highestSlot ≤ a := by
  rw [settle_highestSlot]
  split
  · exact hslot
  · exact h

theorem settle_size : (d.settle slot state stats segments).slots.size ≤
    wrappingMul 4 d.config.slotLookback := OrdMap.popLastUntil_size_le _ _

end

variable [Hasher]

theorem SlotsInv.pushed {d d' : Deshredder} {packet : Bytes} {out : List RawBatch} (h : SlotsInv d)
    (hp : Pushed d packet d' out) : SlotsInv d' := by
  cases hp with
  | dropped stats _ => exact h
  | inserted x state stats stats' segments _ hins =>
    have hI := h.slotState x.slot
    exact h.settle (SlotState.insert_spec hI (SlotState.fecSetIndex_of_insert hins) hins).1

theorem pushed_config {d d' : Deshredder} {packet : Bytes} {out : List RawBatch}
    (hp : Pushed d packet d' out) : d'.config = d.config ∧ d'.rs = d.rs := by
  cases hp with
  | dropped stats _ => exact ⟨rfl, rfl⟩
  | inserted x state stats stats' segments _ hins => exact ⟨rfl, rfl⟩

theorem slotsInv_of_pushAll {d : Deshredder} {config : Config} {rs : ReedSolomon} {packets : List Bytes} {out : List RawBatch}
    (h : (new config rs).pushAll packets = .ok (d, out)) : SlotsInv d := by
  refine Steps.runAll_induct (P := fun _ (d : Deshredder) (_ : List RawBatch) => SlotsInv d)
    (SlotsInv.new config rs) ?_ h
  exact fun is d os b d' out _ hP hstep => hP.pushed (pushRaw_cases hstep)

/-- A slot that is held was named by a datagram. -/
theorem keys_of_pushAll {d : Deshredder} {config : Config} {rs : ReedSolomon} {packets : List Bytes} {out : List RawBatch}
    (h : (new config rs).pushAll packets = .ok (d, out)) :
    ∀ t ∈ d.slots.keys, ∃ packet ∈ packets, ∃ x, Shred.parse packet = .ok x ∧ x.slot = t := by
  refine Steps.runAll_induct (P := fun packets (d : Deshredder) (_ : List RawBatch) =>
    ∀ t ∈ d.slots.keys, ∃ packet ∈ packets, ∃ x, Shred.parse packet = .ok x ∧ x.slot = t) (by simp [new]) ?_ h
  intro packets d os packet d' out _ hold hstep t ht
  have hbefore : t ∈ d.slots.keys → ∃ b ∈ packets ++ [packet], ∃ x, Shred.parse b = .ok x ∧ x.slot = t := by
    intro ht
    obtain ⟨b, hb, hx⟩ := hold t ht
    exact ⟨b, List.mem_append_left _ hb, hx⟩
  cases pushRaw_cases hstep with
  | dropped stats _ => exact hbefore ht
  | inserted x state stats stats' segments hx _ =>
    rcases Finset.mem_insert.mp (settle_keys_subset ht) with rfl | ht
    · exact ⟨packet, by simp, x, hx.parsed, rfl⟩
    · exact hbefore ht

theorem pushRaw_ok_iff {d : Deshredder} (h : SlotsInv d) (packet : Bytes) : (∃ r, d.pushRaw packet = .ok r) ↔
    ∀ x, Admitted d packet x → x.kind = .code → x.fecSetIndex ≤ 32736 := by
  constructor
  · intro ⟨r, hok⟩ x hx
    rw [pushRaw_admitted hx] at hok
    split at hok
    · contradiction
    · rename_i hins
      exact fun _ => SlotState.fecSetIndex_of_insert hins
  · intro hcode
    cases hp : d.pushRaw packet with
    | ok r => exact ⟨r, rfl⟩
    | error p =>
      obtain ⟨x, stats, hx, hins⟩ := pushRaw_error hp
      obtain ⟨r, hok⟩ := (SlotState.insert_ok_iff (h.slotState x.slot) x d.recoverWith stats).mpr (hcode x hx)
      rw [hok] at hins
      contradiction

/-! ### In range -/

/-- The datagram names no slot so large that the additions on it wrap. -/
def InRange (lookback : ℕ) (packet : Bytes) : Prop :=
  ∀ x, Shred.parse packet = .ok x → x.slot + lookback < 2 ^ 64

/-- What every state reached by datagrams in range looks like. -/
structure WindowInv (lookback : ℕ) (d : Deshredder) : Prop where
  slotLookback : d.config.slotLookback = lookback
  slots : SlotsInv d
  range : ∀ t ∈ d.slots.keys, t + lookback < 2 ^ 64
  window : ∀ t ∈ d.slots.keys, d.highestSlot ≤ t + lookback

omit [Hasher] in
theorem WindowInv.new (config : Config) (rs : ReedSolomon) :
    WindowInv config.slotLookback (new config rs) where
  slotLookback := rfl
  slots := SlotsInv.new config rs
  range := by simp [Deshredder.new]
  window := by simp [Deshredder.new]

variable {L : ℕ} {d d' : Deshredder} {packet : Bytes} {out : List RawBatch}

omit [Hasher] in
theorem isStale_iff (hL : d.config.slotLookback = L) {x : Shred} (hx : x.slot + L < 2 ^ 64) :
    d.isStale x = true ↔ x.slot + L < d.highestSlot := by
  rw [isStale, hL, wrappingAdd_of_lt hx, decide_eq_true_eq]

section
omit [Hasher]
variable {slot : ℕ} {state : SlotState} {stats : Stats} {segments : List Segment} {t : ℕ}

/-- Pruning in range removes exactly the slots behind the window. -/
theorem prune_keys (hL : d.config.slotLookback = L) {slots : OrdMap ℕ SlotState}
    (hr : ∀ t ∈ slots.keys, t + L < 2 ^ 64) :
    t ∈ (d.prune slot slots).keys ↔ t ∈ slots.keys ∧ slot ≤ t + L := by
  rw [prune, OrdMap.popFirstWhile_keys, hL]
  apply and_congr_right
  intro ht
  constructor
  · intro ⟨j, hj, hjt, hkeep⟩
    rw [wrappingAdd_of_lt (hr j hj), decide_eq_false_iff_not] at hkeep
    omega
  · intro h
    refine ⟨t, ht, le_rfl, ?_⟩
    rw [wrappingAdd_of_lt (hr t ht), decide_eq_false_iff_not]
    omega

theorem inserted_range (hslot : slot + L < 2 ^ 64) (h : ∀ t ∈ d.slots.keys, t + L < 2 ^ 64) :
    ∀ t ∈ (d.slots.insert slot state).keys, t + L < 2 ^ 64 := by
  intro t ht
  rw [OrdMap.insert_keys, Finset.mem_insert] at ht
  rcases ht with rfl | ht
  · exact hslot
  · exact h t ht

theorem kept_keys (h : WindowInv L d) (hslot : slot + L < 2 ^ 64) :
    t ∈ (d.kept slot state segments).keys ↔ (t = slot ∨ t ∈ d.slots.keys) ∧
      (d.advances slot segments = true → slot ≤ t + L) := by
  have hr := @inserted_range L d slot state hslot h.range
  unfold kept
  split
  · rename_i hadv
    rw [prune_keys h.slotLookback hr, OrdMap.insert_keys, Finset.mem_insert]
    simp [hadv]
  · rename_i hadv
    rw [OrdMap.insert_keys, Finset.mem_insert]
    simp [hadv]

theorem kept_window (stats : Stats) (h : WindowInv L d) (hslot : slot + L < 2 ^ 64) (hfresh : d.highestSlot ≤ slot + L)
    (ht : t ∈ (d.kept slot state segments).keys) :
    t + L < 2 ^ 64 ∧ (d.settle slot state stats segments).highestSlot ≤ t + L := by
  obtain ⟨hmem, hadv⟩ := (kept_keys h hslot).mp ht
  rw [settle_highestSlot]
  rcases hmem with rfl | hmem
  · refine ⟨hslot, ?_⟩
    split
    · rename_i ha
      exact hadv ha
    · exact hfresh
  · refine ⟨h.range t hmem, ?_⟩
    split
    · rename_i ha
      exact hadv ha
    · exact h.window t hmem

theorem kept_of_window (h : WindowInv L d) (hslot : slot + L < 2 ^ 64) (ht : t = slot ∨ t ∈ d.slots.keys)
    (hwin : (d.settle slot state stats segments).highestSlot ≤ t + L) : t ∈ (d.kept slot state segments).keys := by
  refine (kept_keys h hslot).mpr ⟨ht, fun hadv => ?_⟩
  rw [settle_highestSlot, if_pos hadv] at hwin
  exact hwin

theorem settle_keys : t ∈ (d.settle slot state stats segments).slots.keys ↔
    t ∈ (d.kept slot state segments).keys ∧
      ((d.kept slot state segments).keys.filter (· ≤ t)).card ≤ wrappingMul 4 d.config.slotLookback :=
  OrdMap.popLastUntil_keys _ _ t

@[simp] theorem advances_nil : d.advances slot [] = false := by simp [advances]

@[simp] theorem settle_nil_highestSlot : (d.settle slot state stats []).highestSlot = d.highestSlot := by
  rw [settle_highestSlot, advances_nil]
  rfl

/-- A push that completes nothing adds its slot, and may throw out the highest. -/
theorem settle_nil_keys : t ∈ (d.settle slot state stats []).slots.keys ↔ t ∈ insert slot d.slots.keys ∧
    ((insert slot d.slots.keys).filter (· ≤ t)).card ≤ wrappingMul 4 d.config.slotLookback := by
  have hkept : (d.kept slot state []).keys = insert slot d.slots.keys := by simp [kept]
  rw [settle_keys, hkept]

/-- Below `H + 3L` there is room for every slot the window holds. -/
theorem settle_keeps (h : WindowInv L d) (hL : 4 * L < 2 ^ 64) (hslot : slot + L < 2 ^ 64)
    (hfresh : d.highestSlot ≤ slot + L) (ht : t ∈ (d.kept slot state segments).keys)
    (hlt : t < (d.settle slot state stats segments).highestSlot + 3 * L) :
    t ∈ (d.settle slot state stats segments).slots.keys := by
  rw [settle_keys, h.slotLookback, wrappingMul_of_lt hL]
  refine ⟨ht, ?_⟩
  generalize hH : (d.settle slot state stats segments).highestSlot = H at hlt
  have hsub : (d.kept slot state segments).keys.filter (· ≤ t) ⊆ Finset.Ico (H - L) (H + 3 * L) := by
    intro j hj
    obtain ⟨hj, hjt⟩ := Finset.mem_filter.mp hj
    have hw := (kept_window stats h hslot hfresh hj).2
    rw [hH] at hw
    rw [Finset.mem_Ico]
    omega
  have hcard := Finset.card_le_card hsub
  rw [Nat.card_Ico] at hcard
  omega

end

omit [Hasher] in
theorem Admitted.highest_le {x : Shred} (h : WindowInv L d) (hr : InRange L packet) (hx : Admitted d packet x) :
    x.slot + L < 2 ^ 64 ∧ d.highestSlot ≤ x.slot + L := by
  have hrange := hr x hx.parsed
  refine ⟨hrange, ?_⟩
  by_contra hlt
  have hstale := (isStale_iff h.slotLookback hrange).mpr (by omega)
  rw [hx.fresh] at hstale
  contradiction

theorem WindowInv.pushed (h : WindowInv L d) (hr : InRange L packet) (hp : Pushed d packet d' out) :
    WindowInv L d' := by
  have hslots := h.slots.pushed hp
  cases hp with
  | dropped stats _ => exact ⟨h.slotLookback, h.slots, h.range, h.window⟩
  | inserted x state stats stats' segments hx hins =>
    obtain ⟨hrange, hfresh⟩ := hx.highest_le h hr
    refine ⟨h.slotLookback, hslots, ?_, ?_⟩
    · intro t ht
      exact (kept_window stats' h hrange hfresh (settle_keys.mp ht).1).1
    · intro t ht
      exact (kept_window stats' h hrange hfresh (settle_keys.mp ht).1).2

theorem pushed_highest_le (hp : Pushed d packet d' out) : d.highestSlot ≤ d'.highestSlot := by
  cases hp with
  | dropped stats _ => exact le_rfl
  | inserted x state stats stats' segments hx hins =>
    rw [settle_highestSlot]
    split
    · rename_i hadv
      simp only [advances, decide_eq_true_eq] at hadv
      exact hadv.2.le
    · exact le_rfl

theorem WindowInv.pushAll {packets : List Bytes} (h : WindowInv L d) (hr : ∀ b ∈ packets, InRange L b)
    (hp : d.pushAll packets = .ok (d', out)) : WindowInv L d' := by
  induction packets generalizing d out with
  | nil =>
    simp only [Deshredder.pushAll, Steps.runAll_nil, Except.ok.injEq, Prod.mk.injEq] at hp
    rw [← hp.1]
    exact h
  | cons b packets ih =>
    obtain ⟨d₁, out₁, outs, h₁, h₂, _⟩ := Steps.runAll_cons_ok.mp hp
    exact ih (h.pushed (hr b (List.mem_cons_self ..)) (pushRaw_cases h₁))
      (fun c hc => hr c (List.mem_cons_of_mem _ hc)) h₂

/-- A push from `d` to `d'` evicts only slots behind the window or far ahead of it. -/
structure KeepsLive (L : ℕ) (d : Deshredder) (packet : Bytes) (d' : Deshredder) : Prop where
  stays : ∀ s, (s ∈ d.slots.keys ∨ ∃ x, Admitted d packet x ∧ x.slot = s) → d'.highestSlot ≤ s + L →
    s < d'.highestSlot + 3 * L → s ∈ d'.slots.keys
  window : ∀ s ∈ d'.slots.keys, d'.highestSlot ≤ s + L

/-- The memory bound never evicts a live slot. -/
theorem live_slots_stay (config : Config) (rs : ReedSolomon) (packets : List Bytes) (packet : Bytes)
    (hL : 4 * config.slotLookback < 2 ^ 64)
    (hr : ∀ b ∈ packets ++ [packet], InRange config.slotLookback b)
    (hd : (new config rs).pushAll packets = .ok (d, out)) {out' : List RawBatch}
    (hd' : d.pushRaw packet = .ok (d', out')) : KeepsLive config.slotLookback d packet d' := by
  have hpre : ∀ b ∈ packets, InRange config.slotLookback b := fun b hb => hr b (by simp [hb])
  have hlast : InRange config.slotLookback packet := hr packet (by simp)
  have hI := (WindowInv.new config rs).pushAll hpre hd
  have hp := pushRaw_cases hd'
  refine ⟨?_, (hI.pushed hlast hp).window⟩
  intro s hs hwin hlt
  cases hp with
  | dropped stats hno =>
    rcases hs with hs | ⟨x, hx, _⟩
    · exact hs
    · exact absurd hx (hno x)
  | inserted x state stats stats' segments hx hins =>
    obtain ⟨hrange, hfresh⟩ := hx.highest_le hI hlast
    refine settle_keeps hI hL hrange hfresh (kept_of_window hI hrange ?_ hwin) hlt
    rcases hs with hs | ⟨y, hy, rfl⟩
    · exact .inr hs
    · exact .inl (by rw [Except.ok.inj (hy.parsed.symm.trans hx.parsed)])

theorem push_data_returns (h : SlotsInv d) {x : Shred} (hp : Shred.parse packet = .ok x) (hk : x.kind = .data) :
    ∃ d' out, d.pushRaw packet = .ok (d', out) := by
  obtain ⟨⟨d', out⟩, hok⟩ := (pushRaw_ok_iff h packet).mpr fun y hy hc => by
    rw [Except.ok.inj (hy.parsed.symm.trans hp), hk] at hc
    contradiction
  exact ⟨d', out, hok⟩

theorem pushAll_data_returns (config : Config) (rs : ReedSolomon) {packets : List Bytes}
    (h : ∀ b ∈ packets, ∃ x, Shred.parse b = .ok x ∧ x.kind = .data) :
    ∃ d out, (new config rs).pushAll packets = .ok (d, out) := by
  obtain ⟨d, out, hok, _⟩ := Steps.runAll_total (I := SlotsInv)
    (Q := fun b : Bytes => ∃ x, Shred.parse b = .ok x ∧ x.kind = .data) (SlotsInv.new config rs) (fun d b hI hb => by
      obtain ⟨x, hp, hk⟩ := hb
      obtain ⟨d', out, hok⟩ := push_data_returns hI hp hk
      exact ⟨d', out, hok, hI.pushed (pushRaw_cases hok)⟩) packets h
  exact ⟨d, out, hok⟩

/- A blank data shred at index 0 of a slot. -/
def blankPacket (slot : ℕ) (flags : UInt8) : Bytes := (DataPacket.blank slot 0 flags).packet

omit [Hasher] in
theorem parse_blankPacket {slot : ℕ} {flags : UInt8} (hs : slot < 2 ^ 64)
    (hf : flags = 0 ∨ flags = flagDataComplete) : ∃ x, Shred.parse (blankPacket slot flags) = .ok x ∧
      x.kind = .data ∧ x.slot = slot ∧ x.index = 0 ∧ x.version = 0 ∧
      x.dataComplete = (flags &&& flagDataComplete ≠ 0 : Bool) :=
  ⟨_, DataPacket.parse_packet _ (DataPacket.blank_valid hs (by decide) hf), rfl, rfl, rfl, rfl, rfl⟩

omit [Hasher] in
theorem blankPacket_inRange {slot lookback : ℕ} {flags : UInt8} (hs : slot + lookback < 2 ^ 64)
    (hf : flags = 0 ∨ flags = flagDataComplete) : InRange lookback (blankPacket slot flags) := by
  obtain ⟨x, hx, _, hslot, _⟩ := parse_blankPacket (show slot < 2 ^ 64 by omega) hf
  intro y hy
  rw [Except.ok.inj (hy.symm.trans hx), hslot]
  exact hs

omit [Hasher] in
theorem live_slots_stay_two_slots : ∃ d out d' out',
    @pushAll sha256Hasher (new ⟨none, 64, true⟩ ReedSolomon.failing) [blankPacket 7 0] = .ok (d, out) ∧
      @pushRaw sha256Hasher d (blankPacket 8 0) = .ok (d', out') ∧ KeepsLive 64 d (blankPacket 8 0) d' := by
  obtain ⟨x, hx, hkx, _⟩ := parse_blankPacket (show 7 < 2 ^ 64 by decide) (.inl rfl)
  obtain ⟨y, hy, hky, _⟩ := parse_blankPacket (show 8 < 2 ^ 64 by decide) (.inl rfl)
  obtain ⟨d, out, hd⟩ := @pushAll_data_returns sha256Hasher ⟨none, 64, true⟩ ReedSolomon.failing
    [blankPacket 7 0] (by simpa using ⟨x, hx, hkx⟩)
  obtain ⟨d', out', hd'⟩ := @push_data_returns sha256Hasher d _ (@slotsInv_of_pushAll sha256Hasher _ _ _ _ _ hd) _ hy hky
  refine ⟨d, out, d', out', hd, hd', @live_slots_stay sha256Hasher _ _ _ ⟨none, 64, true⟩ ReedSolomon.failing _ _
    (by decide) ?_ hd _ hd'⟩
  intro b hb
  simp only [List.cons_append, List.nil_append, List.mem_cons, List.not_mem_nil, or_false] at hb
  rcases hb with rfl | rfl
  · exact blankPacket_inRange (by decide) (.inl rfl)
  · exact blankPacket_inRange (by decide) (.inl rfl)

/-! ### Every slot number -/

/-- The push counts the shred as stale. -/
def CountedStale (d : Deshredder) (packet : Bytes) : Prop :=
  ∃ d' out, d.pushRaw packet = .ok (d', out) ∧ d'.stats.stale = d.stats.stale + 1

theorem countedStale_iff {x : Shred} (hp : Shred.parse packet = .ok x) (hv : d.wrongVersion x = false) :
    CountedStale d packet ↔ d.isStale x = true := by
  constructor
  · intro ⟨d', out, hok, hstale⟩
    by_contra hs
    rw [pushRaw_admitted ⟨hp, hv, by simpa using hs⟩] at hok
    split at hok
    · contradiction
    · rename_i state stats segments hins
      cases hok
      have hkept : stats.stale = d.stats.stale := (SlotState.insert_counts hins).stale
      exact SlotState.counter_ne _ (hkept.symm.trans hstale)
  · intro hs
    have hok : d.pushRaw packet = .ok ({ d with stats :=
        { d.stats with packets := d.stats.packets + 1, stale := d.stats.stale + 1 } }, []) := by
      simp only [pushRaw, hp]
      rw [if_neg (by simp [hv]), if_pos hs]
    exact ⟨_, _, hok, rfl⟩

omit [Hasher] in
theorem isStale_exact_iff (hL : d.config.slotLookback < 2 ^ 63) {x : Shred} (hh : d.highestSlot < 2 ^ 64) :
    (d.isStale x = true ↔ x.slot + d.config.slotLookback < d.highestSlot) ↔
      x.slot + d.config.slotLookback < 2 ^ 64 ∨ d.highestSlot + 2 ^ 64 ≤ x.slot + d.config.slotLookback := by
  have hslot := x.valid.slot
  rw [isStale, decide_eq_true_eq, wrappingAdd]
  rcases Nat.lt_or_ge (x.slot + d.config.slotLookback) (2 ^ 64) with hlt | hge
  · rw [Nat.mod_eq_of_lt hlt]
    exact ⟨fun _ => .inl hlt, fun _ => Iff.rfl⟩
  · have hmod : (x.slot + d.config.slotLookback) % 2 ^ 64 = x.slot + d.config.slotLookback - 2 ^ 64 := by
      rw [Nat.mod_eq_sub_mod hge, Nat.mod_eq_of_lt (by omega)]
    rw [hmod]
    constructor
    · intro h
      right
      by_contra hno
      have := h.mp (by omega)
      omega
    · intro h
      rcases h with h | h
      · omega
      · constructor <;> intro _ <;> omega

omit [Hasher] in
/-- The prune is exact when the least slot it should keep does not wrap. -/
theorem prune_exact_iff (hL : d.config.slotLookback < 2 ^ 63) {slots : OrdMap ℕ SlotState} {slot : ℕ}
    (hmem : slot ∈ slots.keys) (hlt : slot < 2 ^ 64) :
    (∀ t ∈ slots.keys, t ∈ (d.prune slot slots).keys ↔ ¬ t + d.config.slotLookback < slot) ↔
      ∃ t ∈ slots.keys, slot ≤ t + d.config.slotLookback ∧ t + d.config.slotLookback < 2 ^ 64 := by
  generalize hL' : d.config.slotLookback = L at hL
  have hkeys : ∀ t, t ∈ (d.prune slot slots).keys ↔ t ∈ slots.keys ∧
      ∃ j ∈ slots.keys, j ≤ t ∧ slot ≤ (j + L) % 2 ^ 64 := by
    intro t
    simp only [prune, OrdMap.popFirstWhile_keys, hL', wrappingAdd, decide_eq_false_iff_not, not_lt]
  constructor
  · intro h
    -- the least slot that is to stay
    have hne : (slots.keys.filter fun t => slot ≤ t + L).Nonempty :=
      ⟨slot, Finset.mem_filter.mpr ⟨hmem, by omega⟩⟩
    obtain ⟨t, ht, hmin⟩ : ∃ t ∈ slots.keys.filter (fun t => slot ≤ t + L),
        ∀ j ∈ slots.keys.filter (fun t => slot ≤ t + L), t ≤ j :=
      ⟨_, Finset.min'_mem _ hne, fun j hj => Finset.min'_le _ j hj⟩
    obtain ⟨htk, htL⟩ := Finset.mem_filter.mp ht
    have htslot := hmin slot (Finset.mem_filter.mpr ⟨hmem, by omega⟩)
    obtain ⟨_, j, hj, hjt, hkeep⟩ := (hkeys t).mp ((h t htk).mpr (by omega))
    have hjL : slot ≤ j + L := hkeep.trans (Nat.mod_le _ _)
    have hjeq : j = t := le_antisymm hjt (hmin j (Finset.mem_filter.mpr ⟨hj, hjL⟩))
    refine ⟨t, htk, htL, ?_⟩
    by_contra hge
    rw [hjeq, Nat.mod_eq_sub_mod (by omega), Nat.mod_eq_of_lt (by omega)] at hkeep
    omega
  · intro ⟨t, htk, htL, htlt⟩ u hu
    rw [hkeys]
    constructor
    · intro ⟨_, j, _, hju, hkeep⟩
      have hjL : slot ≤ j + L := hkeep.trans (Nat.mod_le _ _)
      omega
    · intro hkeep
      refine ⟨hu, ?_⟩
      rcases Nat.le_total t u with htu | hut
      · exact ⟨t, htk, htu, by rw [Nat.mod_eq_of_lt htlt]; exact htL⟩
      · exact ⟨u, hu, le_rfl, by rw [Nat.mod_eq_of_lt (by omega)]; omega⟩

theorem highestSlot_lt {config : Config} {rs : ReedSolomon} {packets : List Bytes}
    (h : (new config rs).pushAll packets = .ok (d, out)) :
    d.highestSlot < 2 ^ 64 ∧ ∀ t ∈ d.slots.keys, t < 2 ^ 64 := by
  refine Steps.runAll_induct (P := fun _ (d : Deshredder) (_ : List RawBatch) =>
    d.highestSlot < 2 ^ 64 ∧ ∀ t ∈ d.slots.keys, t < 2 ^ 64) ?_ ?_ h
  · exact ⟨Nat.two_pow_pos 64, by simp [Deshredder.new]⟩
  · intro is d os b d' out _ hP hstep
    cases pushRaw_cases hstep with
    | dropped stats _ => exact hP
    | inserted x state stats stats' segments hx hins =>
      have hslot := x.valid.slot
      refine ⟨?_, ?_⟩
      · rw [settle_highestSlot]
        split
        · exact hslot
        · exact hP.1
      · intro t ht
        have hfind := settle_held ht
        have hin : t ∈ (d.slots.insert x.slot state).keys := by
          rw [OrdMap.mem_keys, ← hfind, ← OrdMap.mem_keys]
          exact ht
        rw [OrdMap.insert_keys, Finset.mem_insert] at hin
        rcases hin with rfl | hin
        · exact hslot
        · exact hP.2 t hin

theorem pushAll_config {config : Config} {rs : ReedSolomon} {packets : List Bytes}
    (h : (new config rs).pushAll packets = .ok (d, out)) : d.config = config := by
  refine Steps.runAll_induct (P := fun _ (d : Deshredder) (_ : List RawBatch) => d.config = config) rfl ?_ h
  exact fun is d os b d' out _ hP hstep => (pushed_config (pushRaw_cases hstep)).1.trans hP

/- The shred counts as stale when it would in exact arithmetic. -/
def StaleExact (d : Deshredder) (packet : Bytes) (x : Shred) : Prop :=
  CountedStale d packet ↔ x.slot + d.config.slotLookback < d.highestSlot

/- The prune removes what it would remove in exact arithmetic. -/
def PruneExact (d : Deshredder) (slot : ℕ) (slots : OrdMap ℕ SlotState) : Prop :=
  ∀ t ∈ slots.keys, t ∈ (d.prune slot slots).keys ↔ ¬ t + d.config.slotLookback < slot

/-- Which slot numbers the window is exact for. -/
structure ExactWhen (d : Deshredder) (packet : Bytes) (x : Shred) : Prop where
  stale : StaleExact d packet x ↔ x.slot + d.config.slotLookback < 2 ^ 64 ∨
    d.highestSlot + 2 ^ 64 ≤ x.slot + d.config.slotLookback
  prune : ∀ state stats segments,
    (d.slotState x.slot).insert x d.recoverWith { d.stats with packets := d.stats.packets + 1 } =
      .ok (state, stats, segments) → d.advances x.slot segments = true →
    (PruneExact d x.slot (d.slots.insert x.slot state) ↔
      ∃ t, (t = x.slot ∨ t ∈ d.slots.keys) ∧ x.slot ≤ t + d.config.slotLookback ∧
        t + d.config.slotLookback < 2 ^ 64)

theorem window_exact_iff (config : Config) (rs : ReedSolomon) (packets : List Bytes)
    (hL : config.slotLookback < 2 ^ 63) (hd : (new config rs).pushAll packets = .ok (d, out)) (packet : Bytes)
    (x : Shred) (hp : Shred.parse packet = .ok x) (hv : d.wrongVersion x = false) : ExactWhen d packet x := by
  have hc := pushAll_config hd
  have hL' : d.config.slotLookback < 2 ^ 63 := by rwa [hc]
  refine ⟨?_, ?_⟩
  · rw [StaleExact, countedStale_iff hp hv]
    exact isStale_exact_iff hL' (highestSlot_lt hd).1
  · intro state stats segments _ _
    have hmem : x.slot ∈ (d.slots.insert x.slot state).keys := by simp
    rw [PruneExact, prune_exact_iff hL' hmem x.valid.slot]
    simp

/- What the first shred of a slot does that is a run of its own, when the slot is beyond
the highest one. -/
structure Raised (d : Deshredder) (packet : Bytes) (slot : ℕ) (d' : Deshredder) (out : List RawBatch) : Prop where
  pushed : d.pushRaw packet = .ok (d', out)
  highest : d'.highestSlot = slot
  emits : out ≠ []
  batches : ∀ b ∈ out, b.slot = slot
  settled : ∃ x state stats segments, Admitted d packet x ∧ x.slot = slot ∧
    (d.slotState x.slot).insert x d.recoverWith { d.stats with packets := d.stats.packets + 1 } =
      .ok (state, stats, segments) ∧
    d.advances x.slot segments = true ∧ d' = d.settle x.slot state stats segments

theorem push_raises (h : SlotsInv d) {x : Shred} (hx : Admitted d packet x) (hk : x.kind = .data)
    (hi : x.index = 0) (hd : x.dataComplete = true) (hfresh : d.slotState x.slot = SlotState.empty)
    (hs : d.highestSlot < x.slot) : ∃ d' out, Raised d packet x.slot d' out := by
  obtain ⟨d', out, hok⟩ := push_data_returns h hx.parsed hk
  have hcases := hok
  rw [pushRaw_admitted hx] at hcases
  split at hcases
  · contradiction
  · rename_i state stats segments hins
    have hne : segments ≠ [] := by
      have hempty := hins
      rw [hfresh] at hempty
      exact SlotState.insert_empty_emits hk hi hd hempty
    have hadv : d.advances x.slot segments = true := by simp [advances, hne, hs]
    cases hcases
    refine ⟨_, _, hok, by rw [settle_highestSlot, if_pos hadv], by simpa using hne, ?_, x, state, stats, segments, hx, rfl,
      hins, hadv, rfl⟩
    intro b hb
    obtain ⟨segment, _, rfl⟩ := List.mem_map.mp hb
    rfl

/- A blank shred that ends a run, in a slot that nothing is known of yet. -/
theorem blank_raises (h : SlotsInv d) {slot : ℕ} (hv : d.config.shredVersion = none) (hs : slot < 2 ^ 64)
    (hstale : d.highestSlot ≤ wrappingAdd slot d.config.slotLookback) (hfresh : slot ∉ d.slots.keys)
    (hhigh : d.highestSlot < slot) : ∃ d' out, Raised d (blankPacket slot flagDataComplete) slot d' out := by
  obtain ⟨x, hx, hk, rfl, hi, hver, hd⟩ := parse_blankPacket hs (.inr rfl)
  have hadm : Admitted d (blankPacket x.slot flagDataComplete) x :=
    ⟨hx, by simp [wrongVersion, hv], by simpa [isStale] using hstale⟩
  exact push_raises h hadm hk hi (by rw [hd]; decide) (slotState_of_not_held hfresh) hhigh

/- A blank shred that ends a run, to a Deshredder that has seen nothing. -/
theorem first_blank_raises {config : Config} {rs : ReedSolomon} {slot : ℕ} (hv : config.shredVersion = none)
    (h0 : 0 < slot) (hs : slot < 2 ^ 64) : ∃ d out,
      (new config rs).pushAll [blankPacket slot flagDataComplete] = .ok (d, out) ∧ d.highestSlot = slot := by
  obtain ⟨d, out, hR⟩ := blank_raises (SlotsInv.new config rs) hv hs (Nat.zero_le _) (by simp [new]) h0
  exact ⟨d, out, Steps.runAll_singleton_ok.mpr hR.pushed, hR.highest⟩

/-- Two such shreds, one slot after the other. -/
theorem two_blanks_raise {slot slot' : ℕ} (h0 : 0 < slot) (hlt : slot < slot') (hs : slot' + 64 < 2 ^ 64) :
    ∃ d out d' out', Raised (new ⟨none, 64, true⟩ ReedSolomon.failing) (blankPacket slot flagDataComplete) slot d out ∧
      Raised d (blankPacket slot' flagDataComplete) slot' d' out' ∧ slot ∈ d.slots.keys ∧ WindowInv 64 d' := by
  obtain ⟨d, out, hR⟩ := blank_raises (SlotsInv.new ⟨none, 64, true⟩ ReedSolomon.failing) rfl (show slot < 2 ^ 64 by omega)
    (Nat.zero_le _) (by simp [new]) h0
  have hW := WindowInv.new ⟨none, 64, true⟩ ReedSolomon.failing
  obtain ⟨x, state, stats, segments, hx, hslot, _, _, heq⟩ := hR.settled
  have hrange : x.slot + 64 < 2 ^ 64 := by omega
  have hkept : ∀ t, t ∈ ((new ⟨none, 64, true⟩ ReedSolomon.failing).kept x.slot state segments).keys ↔ t = x.slot := by
    intro t
    rw [kept_keys hW hrange]
    constructor
    · rintro ⟨rfl | ht, _⟩
      · rfl
      · simp [new] at ht
    · rintro rfl
      exact ⟨.inl rfl, fun _ => Nat.le_add_right _ _⟩
  have hheld : slot ∈ d.slots.keys := by
    have hhigh := hR.highest
    rw [heq] at hhigh ⊢
    refine settle_keeps hW (by decide) hrange (Nat.zero_le _) ((hkept slot).mpr hslot.symm) ?_
    rw [hhigh]
    show slot < slot + 3 * 64
    omega
  have hother : slot' ∉ d.slots.keys := by
    intro ht
    rw [heq] at ht
    have hsame := (hkept slot').mp (settle_keys.mp ht).1
    omega
  have hconfig : d.config = ⟨none, 64, true⟩ := by rw [heq]; rfl
  have hW₁ : WindowInv 64 d := hW.pushed (blankPacket_inRange (show slot + 64 < 2 ^ 64 by omega) (.inr rfl))
    (pushRaw_cases hR.pushed)
  obtain ⟨d', out', hR'⟩ := blank_raises hW₁.slots (by rw [hconfig]) (show slot' < 2 ^ 64 by omega)
    (by
      rw [hR.highest, hconfig, wrappingAdd_of_lt hs]
      exact hlt.le.trans (Nat.le_add_right _ _)) hother (by rw [hR.highest]; exact hlt)
  exact ⟨d, out, d', out', hR, hR', hheld, hW₁.pushed (blankPacket_inRange hs (.inr rfl)) (pushRaw_cases hR'.pushed)⟩

omit [Hasher] in
/-- The first shred of slot 100 moves the window past slot 7, and the prune removes that. -/
theorem window_exact_iff_moves_past : ∃ d out x state stats segments,
    @pushAll sha256Hasher (new ⟨none, 64, true⟩ ReedSolomon.failing) [blankPacket 7 flagDataComplete] = .ok (d, out) ∧
      @ExactWhen sha256Hasher d (blankPacket 100 flagDataComplete) x ∧
      @SlotState.insert sha256Hasher (d.slotState x.slot) x d.recoverWith { d.stats with packets := d.stats.packets + 1 } =
        .ok (state, stats, segments) ∧
      x.slot = 100 ∧ 7 ∈ d.slots.keys ∧ 7 ∉ (d.prune 100 (d.slots.insert 100 state)).keys := by
  let : Hasher := sha256Hasher
  obtain ⟨d, out, d', out', hR, hR', hheld, _⟩ :=
    two_blanks_raise (show 0 < 7 by decide) (show 7 < 100 by decide) (show 100 + 64 < 2 ^ 64 by decide)
  obtain ⟨x, state, stats, segments, hx, hslot, hins, hadv, _⟩ := hR'.settled
  have hrun := Steps.runAll_singleton_ok.mpr hR.pushed
  have hexact := @window_exact_iff sha256Hasher d out ⟨none, 64, true⟩ ReedSolomon.failing _ (by decide) hrun _ x hx.parsed
    hx.version
  have hconfig : d.config.slotLookback = 64 := by rw [@pushAll_config sha256Hasher _ _ _ _ _ hrun]
  have hprune := (hexact.prune state stats segments hins hadv).mpr ⟨x.slot, .inl rfl, by omega, by omega⟩
  have hseven := hprune 7 (by rw [OrdMap.insert_keys]; exact Finset.mem_insert_of_mem hheld)
  rw [hslot] at hseven
  refine ⟨d, out, x, state, stats, segments, hrun, hexact, hins, hslot, hheld, ?_⟩
  rw [hseven]
  omega

omit [Hasher] in
/-- After slot 100, the last slot number there is counts as stale. -/
theorem last_slot_counted_stale : ∃ d out,
    @pushAll sha256Hasher (new ⟨none, 64, true⟩ ReedSolomon.failing) [blankPacket 100 flagDataComplete] = .ok (d, out) ∧
      @CountedStale sha256Hasher d (blankPacket (2 ^ 64 - 1) 0) ∧ ¬ 2 ^ 64 - 1 + 64 < d.highestSlot := by
  obtain ⟨d, out, hd, hhigh⟩ := @first_blank_raises sha256Hasher ⟨none, 64, true⟩ ReedSolomon.failing 100 rfl
    (by decide) (by decide)
  obtain ⟨x, hx, _, hslot, _⟩ := parse_blankPacket (show 2 ^ 64 - 1 < 2 ^ 64 by decide) (.inl rfl)
  have hc := @pushAll_config sha256Hasher _ _ _ _ _ hd
  refine ⟨d, out, hd, ?_, by omega⟩
  refine (@countedStale_iff sha256Hasher d _ x hx (by simp [wrongVersion, hc])).mpr ?_
  rw [isStale, hc, hslot, hhigh]
  decide

end Deshredder
end Deshred
