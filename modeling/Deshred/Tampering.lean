import Deshred.Delivery
import Deshred.Emission
import Deshred.Forgery
import Deshred.Isolation

/-!
# Forged datagrams in a stream

A stream holds a leader's block for one slot and whatever else arrives: datagrams of
other slots, garbage, forged and corrupted shreds of the slot itself. As long as the slot
is not evicted, and the first shred that each of its sets takes in is genuine, the slot
hands out what the genuine datagrams alone would make it hand out.
-/

namespace Deshred

namespace Deshredder
variable {B : Block} {config : Config} {rs : ReedSolomon} {s : ℕ} {packet : Bytes} {packets : List Bytes}
  {Codeword : List Bytes → Prop}

/- A datagram with a genuine shred of slot `s`. -/
def genuinePacket (B : Block) (config : Config) (s : ℕ) (packet : Bytes) : Bool :=
  (rightVersion config packet).any fun x => x.slot = s && B.genuine x

def genuinePackets (B : Block) (config : Config) (s : ℕ) (packets : List Bytes) : List Bytes :=
  packets.filter (genuinePacket B config s)

/- What the slot's `insert` is called with. -/
def inputsOf (config : Config) (rs : ReedSolomon) (s : ℕ) (packets : List Bytes) : List (Shred × Option ReedSolomon) :=
  (shredsOf config s packets).map fun x => (x, (new config rs).recoverWith)

theorem genuinePacket_iff : genuinePacket B config s packet = true ↔
    ∃ x, rightVersion config packet = some x ∧ x.slot = s ∧ B.genuine x = true := by
  rw [genuinePacket, Option.any_eq_true]
  simp only [Bool.and_eq_true, decide_eq_true_eq]

theorem rightVersion_parsed {x : Shred} (h : rightVersion config packet = some x) : Shred.parse packet = .ok x := by
  unfold rightVersion at h
  split at h
  · contradiction
  · rename_i y hy
    split at h
    · contradiction
    · rw [hy, Option.some.inj h]

/-- The genuine shreds of the slot are the shreds of the genuine datagrams. -/
theorem shredsOf_genuine (B : Block) (config : Config) (s : ℕ) (packets : List Bytes) :
    shredsOf config s (genuinePackets B config s packets) = (shredsOf config s packets).filter B.genuine := by
  induction packets with
  | nil => rfl
  | cons packet packets ih =>
    have hone : shredsOf config s (genuinePackets B config s [packet]) = (shredsOf config s [packet]).filter B.genuine := by
      cases hv : rightVersion config packet with
      | none => simp [genuinePackets, genuinePacket, shredsOf, hv]
      | some x =>
        by_cases hs : x.slot = s
        · cases hg : B.genuine x with
          | false => simp [genuinePackets, genuinePacket, shredsOf, hv, hs, hg]
          | true => simp [genuinePackets, genuinePacket, shredsOf, hv, hs, hg]
        · simp [genuinePackets, genuinePacket, shredsOf, hv, hs]
    have hsplit : genuinePackets B config s (packet :: packets) =
        genuinePackets B config s [packet] ++ genuinePackets B config s packets := by
      rw [genuinePackets, ← List.singleton_append, List.filter_append]
      rfl
    rw [hsplit, shredsOf_cons, List.filter_append, ← hone, ← ih]
    simp only [shredsOf, List.filterMap_append, List.filter_append]

theorem inputsOf_genuine (B : Block) (config : Config) (rs : ReedSolomon) (s : ℕ) (packets : List Bytes) :
    inputsOf config rs s (genuinePackets B config s packets) =
      SlotState.genuineInputs B (inputsOf config rs s packets) := by
  rw [inputsOf, inputsOf, SlotState.genuineInputs, shredsOf_genuine, List.filter_map]
  rfl

theorem namedSlots_genuine (B : Block) (config : Config) (s : ℕ) (packets : List Bytes) :
    namedSlots config (genuinePackets B config s packets) ⊆ namedSlots config packets ∩ {s} := by
  intro t ht
  obtain ⟨x, hx, rfl⟩ := List.mem_map.mp (List.mem_toFinset.mp ht)
  obtain ⟨b, hb, hv⟩ := List.mem_filterMap.mp hx
  obtain ⟨hmem, hgen⟩ := List.mem_filter.mp hb
  obtain ⟨y, hy, hslot, _⟩ := genuinePacket_iff.mp hgen
  rw [hv] at hy
  rw [← Option.some.inj hy] at hslot
  rw [Finset.mem_inter, Finset.mem_singleton]
  exact ⟨List.mem_toFinset.mpr (List.mem_map.mpr ⟨x, List.mem_filterMap.mpr ⟨b, hmem, hv⟩, rfl⟩), hslot⟩

/-- The batches of one slot, as its segments. -/
theorem filter_slot (s : ℕ) (out : List RawBatch) :
    out.filter (fun b => b.slot = s) = (out.filterMap (RawBatch.segmentIn s)).map (rawBatch s) := by
  induction out with
  | nil => rfl
  | cons b out ih =>
    by_cases hb : b.slot = s
    · subst hb
      simp only [List.filter_cons, decide_true, ↓reduceIte, List.filterMap_cons, RawBatch.segmentIn, List.map_cons]
      exact congrArg _ ih
    · simp only [List.filter_cons, hb, decide_false, Bool.false_eq_true, ↓reduceIte, List.filterMap_cons, RawBatch.segmentIn]
      exact ih

variable [Hasher] {d d' : Deshredder} {out out' : List RawBatch}

theorem batches_named (h : (new config rs).pushAll packets = .ok (d, out)) : ∀ b ∈ out, b.slot ∈ namedSlots config packets := by
  have hboth : d.config = config ∧ ∀ b ∈ out, b.slot ∈ namedSlots config packets := by
    refine Steps.runAll_induct (P := fun packets d out => d.config = config ∧ ∀ b ∈ out, b.slot ∈ namedSlots config packets)
      ⟨rfl, by simp⟩ ?_ h
    intro packets d out packet d' out' _ hP hok
    obtain ⟨hconfig, hnamed⟩ := hP
    have hmono : ∀ t ∈ namedSlots config packets, t ∈ namedSlots config (packets ++ [packet]) := by
      intro t ht
      simp only [namedSlots, List.filterMap_append, List.map_append, List.toFinset_append]
      exact Finset.mem_union_left _ ht
    have hp := pushRaw_cases hok
    refine ⟨(pushed_config hp).1.trans hconfig, ?_⟩
    intro b hb
    rcases List.mem_append.mp hb with hb | hb
    · exact hmono _ (hnamed b hb)
    · cases hp with
      | dropped stats hno => exact absurd hb List.not_mem_nil
      | inserted x state stats stats' segments hx hins =>
        obtain ⟨seg, _, rfl⟩ := List.mem_map.mp hb
        have hv := rightVersion_iff.mpr ⟨hx.parsed, hx.version⟩
        rw [hconfig] at hv
        simp [namedSlots, hv, rawBatch]
  exact hboth.2

theorem genuine_returns (hB : B.Committed Codeword s) (config : Config) (rs : ReedSolomon) (packets : List Bytes) :
    ∃ d out, (new config rs).pushAll (genuinePackets B config s packets) = .ok (d, out) := by
  obtain ⟨d, out, hrun, _⟩ := Steps.runAll_total (I := SlotsInv) (Q := fun b => genuinePacket B config s b = true)
    (SlotsInv.new config rs) (fun d b hI hb => by
      obtain ⟨x, hx, _, hgen⟩ := genuinePacket_iff.mp hb
      obtain ⟨⟨d', out⟩, hok⟩ := (pushRaw_ok_iff hI b).mpr fun y hy _ => by
        obtain rfl : y = x := Except.ok.inj (hy.parsed.symm.trans (rightVersion_parsed hx))
        obtain ⟨S, hS, _⟩ := Block.genuine_iff.mp hgen
        exact (hB _ S hS).inRange
      exact ⟨d', out, hok, hI.pushed (pushRaw_cases hok)⟩) (genuinePackets B config s packets)
    (fun b hb => (List.mem_filter.mp hb).2)
  exact ⟨d, out, hrun⟩

/-- The genuine datagrams alone leave their slot in peace. -/
theorem genuine_alone (h : (new config rs).pushAll (genuinePackets B config s packets) = .ok (d, out))
    (hs : s + config.slotLookback < 2 ^ 64)
    (hroom : ((namedSlots config packets).filter (· ≤ s)).card ≤ wrappingMul 4 config.slotLookback) :
    out.filter (fun b => b.slot = s) = out ∧ ∃ stats', SlotState.insertAll Stats.default
      (SlotState.genuineInputs B (inputsOf config rs s packets)) =
        .ok ((d.slotState s, stats'), out.filterMap (RawBatch.segmentIn s)) := by
  have hnamed := namedSlots_genuine B config s packets
  have hslots : ∀ b ∈ out, b.slot = s := by
    intro b hb
    have ht := hnamed (batches_named h b hb)
    rw [Finset.mem_inter, Finset.mem_singleton] at ht
    exact ht.2
  refine ⟨List.filter_eq_self.mpr fun b hb => decide_eq_true (hslots b hb), ?_⟩
  have hwindow : d.highestSlot ≤ s + config.slotLookback := by
    rcases pushAll_highest h with h0 | ⟨b, hb, hh⟩
    · omega
    · have hbs := hslots b hb
      omega
  have hroom' : (((new config rs).slots.keys ∪ namedSlots config (genuinePackets B config s packets)).filter
      (· ≤ s)).card ≤ wrappingMul 4 config.slotLookback := by
    rw [new_keys_union]
    refine (Finset.card_le_card (Finset.filter_subset_filter _ ?_)).trans hroom
    exact hnamed.trans Finset.inter_subset_left
  have hempty : (new config rs).slotState s = (SlotState.empty, Stats.default).1 := rfl
  obtain ⟨stats', hrun⟩ := slot_left hempty hs hroom' h hwindow
  refine ⟨stats', ?_⟩
  rw [← inputsOf_genuine]
  exact hrun

/- Slot `s` with a leader's block, in a stream of anything. -/
structure Embattled (B : Block) (Codeword : List Bytes → Prop) (config : Config) (rs : ReedSolomon) (s : ℕ)
    (packets : List Bytes) : Prop where
  block : B.Committed Codeword s
  rebuilds : rs.Rebuilds Codeword
  range : s + config.slotLookback < 2 ^ 64
  room : ((namedSlots config packets).filter (· ≤ s)).card ≤ wrappingMul 4 config.slotLookback
  collisionFree : Merkle.CollisionFree (B.Evaluated (inputsOf config rs s packets))
  firstGenuine : SlotState.FirstGenuine B Stats.default (inputsOf config rs s packets)

/-- Next to the slot in the stream, the slot on its genuine shreds. -/
theorem Embattled.genuine_run (h : Embattled B Codeword config rs s packets)
    (hrun : (new config rs).pushAll packets = .ok (d, out)) (hwindow : d.highestSlot ≤ s + config.slotLookback) :
    ∃ d' out', (new config rs).pushAll (genuinePackets B config s packets) = .ok (d', out') ∧
      out' = out.filter (fun b => b.slot = s) ∧
      ∀ seg ∈ out.filterMap (RawBatch.segmentIn s), B.LeaderRun seg.shreds.1 seg.shreds.2 ∧
        seg = B.segment seg.shreds.1 seg.shreds.2 := by
  have hempty : (new config rs).slotState s = (SlotState.empty, Stats.default).1 := rfl
  have hroom := h.room
  rw [← new_keys_union config rs (namedSlots config packets)] at hroom
  obtain ⟨stats', hslot⟩ := slot_left hempty h.range hroom hrun hwindow
  have hrs : ∀ i ∈ inputsOf config rs s packets, ∀ r, i.2 = some r → r.Rebuilds Codeword := by
    intro i hi r hr
    obtain ⟨x, _, rfl⟩ := List.mem_map.mp hi
    exact ((recoverWith_rebuilds (d := new config rs) rfl rfl h.rebuilds).1 r hr).2
  have hunmoved := SlotState.unmoved h.block h.collisionFree hrs h.firstGenuine hslot
  obtain ⟨s', hs', _⟩ := hunmoved.same
  obtain ⟨d', out', hgenuine⟩ := genuine_returns h.block config rs packets
  obtain ⟨hall, stats₂, hs₂⟩ := genuine_alone hgenuine h.range h.room
  have hsame : out'.filterMap (RawBatch.segmentIn s) = out.filterMap (RawBatch.segmentIn s) := by
    rw [hs'] at hs₂
    simp only [Except.ok.injEq, Prod.mk.injEq] at hs₂
    exact hs₂.2.symm
  refine ⟨d', out', hgenuine, ?_, hunmoved.leader⟩
  rw [← hall, filter_slot, filter_slot, hsame]

/- The block of slot `s`, and no other. -/
def onlyBlock (B : Block) (s t : ℕ) : Block := if t = s then B else fun _ => none

omit [Hasher] in
theorem onlyBlock_self (B : Block) (s : ℕ) : onlyBlock B s s = B := if_pos rfl

theorem onlyBlock_consistent {version : ℕ} (hB : B.Consistent Codeword s version) (t : ℕ) :
    (onlyBlock B s t).Consistent Codeword t version := by
  unfold onlyBlock
  split
  · rename_i ht
    rw [ht]
    exact hB
  · intro f S hS
    contradiction

omit [Hasher] in
/-- Without a retransmitter signature a genuine shred is the leader's own. -/
theorem genuine_sends {x : Shred} (hx : B.genuine x = true)
    (hplain : ∀ f S, B f = some S → ∀ q, (S.shred q).resigned = false) : B.Sends x := by
  obtain ⟨S, hS, hagrees⟩ := Block.genuine_iff.mp hx
  have hend : (S.shred x.position).proofEnd = (S.shred x.position).bytes.length := by
    have hl := (S.shred x.position).layout
    rw [hplain _ S hS x.position, if_neg Bool.false_ne_true] at hl
    simp only [Shred.proofEnd, Shred.proofOffset, merkleRootSize, Merkle.proofEntrySize]
    omega
  have hkind := hagrees.kind (by
    have hge := (S.shred x.position).bytes_length_ge
    omega)
  have hlen : x.bytes.length = (S.shred x.position).bytes.length := by
    rw [x.bytes_length, (S.shred x.position).bytes_length, hkind]
  have hbytes : x.bytes = (S.shred x.position).bytes := by
    rw [hend, Shred.Agrees, List.take_length, ← hlen, List.take_length] at hagrees
    exact hagrees
  refine ⟨S, hS, ?_⟩
  have hparse := x.parse_bytes
  rw [hbytes, Shred.parse_bytes] at hparse
  exact Except.ok.inj hparse

end Deshredder

/-! ### A forged shred in front of a leader's -/

namespace Deshredder

def heapConfig : Config := ⟨none, 64, true⟩

def heapTable : ReedSolomon := ReedSolomon.table (lineCodeword 7 fun _ => 0)

/- Both of slot 7; the first one has no proof. -/
def heapPackets : List Bytes := [unproven.bytes, (heapSet.data 0).bytes]

theorem heapPackets_read : heapPackets.filterMap (rightVersion heapConfig) = [unproven, heapSet.data 0] := by
  have hright : ∀ x : Shred, rightVersion heapConfig x.bytes = some x := by
    intro x
    rw [rightVersion, Shred.parse_bytes]
    rfl
  simp [heapPackets, hright]

theorem heapPackets_slots : ∀ x ∈ [unproven, heapSet.data 0], x.slot = 7 := by
  intro x hx
  simp only [List.mem_cons, List.not_mem_nil, or_false] at hx
  rcases hx with rfl | rfl
  · rfl
  · exact (@LeaderSet.Committed.slot heapHasher _ _ _ _ heapSet_committed) (.data 0)

theorem heapPackets_shreds : shredsOf heapConfig 7 heapPackets = [unproven, heapSet.data 0] := by
  rw [shredsOf, heapPackets_read, List.filter_eq_self]
  exact fun x hx => decide_eq_true (heapPackets_slots x hx)

theorem heapPackets_named : namedSlots heapConfig heapPackets ⊆ {7} := by
  intro t ht
  rw [namedSlots, heapPackets_read] at ht
  obtain ⟨x, hx, rfl⟩ := List.mem_map.mp (List.mem_toFinset.mp ht)
  exact Finset.mem_singleton.mpr (heapPackets_slots x hx)

theorem heapPackets_run : ∃ d out, @pushAll heapHasher (new heapConfig heapTable) heapPackets = .ok (d, out) ∧
    d.highestSlot ≤ 7 + 64 := by
  obtain ⟨d, out, hrun⟩ := @pushAll_data_returns heapHasher heapConfig heapTable heapPackets (by
    intro b hb
    simp only [heapPackets, List.mem_cons, List.not_mem_nil, or_false] at hb
    rcases hb with rfl | rfl
    · exact ⟨unproven, Shred.parse_bytes _, rfl⟩
    · have hpos := (@LeaderSet.Committed.position heapHasher _ _ _ _ heapSet_committed) (.data 0)
      exact ⟨heapSet.data 0, Shred.parse_bytes _, (Shred.position_data _ hpos).1⟩)
  refine ⟨d, out, hrun, ?_⟩
  rcases @pushAll_highest d out heapHasher _ _ _ hrun with h0 | ⟨b, hb, hh⟩
  · omega
  · have hnamed := heapPackets_named (@batches_named _ _ _ heapHasher _ _ hrun b hb)
    rw [Finset.mem_singleton] at hnamed
    omega

theorem heapPackets_evaluated {b : Bytes}
    (h : @Block.Evaluated heapHasher heapBlock (inputsOf heapConfig heapTable 7 heapPackets) b) :
    @Block.Evaluated heapHasher heapBlock (heapInputs unproven) b := by
  obtain hb | ⟨i, hi, hb⟩ := h
  · exact .inl hb
  · rw [inputsOf, heapPackets_shreds] at hi
    simp only [List.map_cons, List.map_nil, List.mem_cons, List.not_mem_nil, or_false] at hi
    rcases hi with rfl | rfl
    · exact .inr ⟨_, List.mem_cons_self .., hb⟩
    · exact .inr ⟨_, List.mem_cons_of_mem _ (List.mem_cons_self ..), hb⟩

theorem heapPackets_firstGenuine :
    @SlotState.FirstGenuine heapHasher heapBlock Stats.default (inputsOf heapConfig heapTable 7 heapPackets) := by
  apply @SlotState.firstGenuine_of heapHasher
  intro i hi
  rw [inputsOf, heapPackets_shreds] at hi
  simp only [List.map_cons, List.map_nil, List.mem_cons, List.not_mem_nil, or_false] at hi
  rcases hi with rfl | rfl
  · exact .inr (@Rootless.merkleRoot heapHasher _ unproven_rootless)
  · exact .inl heapBlock_genuine

theorem heapPackets_room : ((namedSlots heapConfig heapPackets).filter (· ≤ 7)).card ≤ wrappingMul 4 64 := by
  have hcard : ((namedSlots heapConfig heapPackets).filter (· ≤ 7)).card ≤ 1 :=
    (Finset.card_filter_le _ _).trans (Finset.card_le_card heapPackets_named)
  exact hcard.trans (by decide)

theorem heapPackets_embattled :
    @Embattled heapHasher heapBlock (· = lineCodeword 7 fun _ => 0) heapConfig heapTable 7 heapPackets :=
  @Embattled.mk heapHasher _ _ _ _ _ _ heapBlock_committed (ReedSolomon.table_rebuilds (lineCodeword_length ..))
    (by decide) heapPackets_room
    (fun x y hx hy => heap_collisionFree unproven_rootless x y (heapPackets_evaluated hx) (heapPackets_evaluated hy)) heapPackets_firstGenuine

theorem heapBlock_plain : ∀ f S, heapBlock f = some S → ∀ q, (S.shred q).resigned = false := by
  intro f S hS q
  have hset := @lineSet_consistent heapHasher 7 sampleSlot_lt
  simp only [heapBlock] at hS
  split at hS
  · rw [← Option.some.inj hS]
    exact (@LeaderSet.Consistent.resigned heapHasher _ _ _ _ _ hset q).trans rfl
  · contradiction

end Deshredder
end Deshred
