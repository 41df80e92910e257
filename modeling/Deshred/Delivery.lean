import Deshred.Codeword
import Deshred.LeaderSlot
import Deshred.Window

/-!
# Delivery

Leader shreds of slots that lie close together arrive in any order, any number of
times. Every run that arrived, or that can be recovered, is handed out once, with the
leader's bytes.
-/

namespace Deshred
namespace Deshredder
variable [Hasher]

/- Where a datagram belongs, when it is of set `f` of slot `slot`. -/
def arrivedAt (slot f : ℕ) (packet : Bytes) : Option Position :=
  match Shred.parse packet with
  | .error _ => none
  | .ok x => if x.slot = slot ∧ x.fecSetIndex = f then some x.position else none

/-- The erasure positions of each set of a slot that some datagram filled. -/
def arrivals (packets : List Bytes) (slot f : ℕ) : Finset Position :=
  (packets.filterMap (arrivedAt slot f)).toFinset

omit [Hasher] in
theorem arrivals_snoc {packets : List Bytes} {packet : Bytes} {x : Shred} (hx : Shred.parse packet = .ok x)
    (slot : ℕ) : arrivals (packets ++ [packet]) slot =
      if slot = x.slot then arrive (arrivals packets x.slot) x else arrivals packets slot := by
  funext f
  have hone : ∀ l : List Position, (l ++ (Option.toList (arrivedAt slot f packet))).toFinset =
      if x.slot = slot ∧ x.fecSetIndex = f then insert x.position l.toFinset else l.toFinset := by
    intro l
    simp only [arrivedAt, hx]
    split
    · rw [Option.toList_some, List.toFinset_append, List.toFinset_cons, List.toFinset_nil,
        Finset.union_insert, Finset.union_empty]
    · rw [Option.toList_none, List.append_nil]
  have hsplit : arrivals (packets ++ [packet]) slot f =
      (packets.filterMap (arrivedAt slot f) ++ (arrivedAt slot f packet).toList).toFinset := by
    rw [arrivals, List.filterMap_append]
    cases h : arrivedAt slot f packet with
    | none => simp [h]
    | some q => simp [h]
  rw [hsplit, hone]
  by_cases hs : slot = x.slot
  · subst hs
    rw [if_pos rfl, arrive]
    by_cases hf : f = x.fecSetIndex
    · subst hf
      rw [if_pos ⟨rfl, rfl⟩, Function.update_self, arrivals]
    · rw [if_neg (fun h => hf h.2.symm), Function.update_of_ne hf, arrivals]
  · rw [if_neg (fun h => hs h.1.symm), if_neg hs, arrivals]

/- A run of a leader's block, as it is handed out. -/
def leaderBatch (blocks : ℕ → Block) (slot s e : ℕ) : RawBatch := rawBatch slot ((blocks slot).segment s e)

section
omit [Hasher]
variable {L a slot : ℕ} {d : Deshredder} {state : SlotState} {stats : Stats} {segments : List Segment}

/-- As long as all slots lie within one lookback of each other none is evicted. -/
theorem settle_near (hW : WindowInv L d) (hL : 1 ≤ L) (h4 : 4 * L < 2 ^ 64) (ha : a + 2 * L < 2 ^ 64)
    (hslot : a ≤ slot ∧ slot ≤ a + L) (hnear : ∀ t ∈ d.slots.keys, a ≤ t ∧ t ≤ a + L) (t : ℕ) :
    t ∈ (d.settle slot state stats segments).slots.keys ↔ t = slot ∨ t ∈ d.slots.keys := by
  have hkept : ∀ t, t ∈ (d.kept slot state segments).keys ↔ t = slot ∨ t ∈ d.slots.keys := by
    intro t
    rw [kept_keys hW (by omega)]
    refine ⟨And.left, fun h => ⟨h, fun _ => ?_⟩⟩
    have ht : a ≤ t := by
      rcases h with rfl | h
      · exact hslot.1
      · exact (hnear t h).1
    omega
  rw [settle_keys, hkept, hW.slotLookback, wrappingMul_of_lt h4]
  refine ⟨And.left, fun h => ⟨h, ?_⟩⟩
  have hsub : (d.kept slot state segments).keys.filter (· ≤ t) ⊆ Finset.Icc a (a + L) := by
    intro j hj
    have hj := (hkept j).mp (Finset.mem_filter.mp hj).1
    rw [Finset.mem_Icc]
    rcases hj with rfl | hj
    · exact hslot
    · exact hnear j hj
  have hcard := Finset.card_le_card hsub
  rw [Nat.card_Icc] at hcard
  omega

theorem settle_near_slotState (hW : WindowInv L d) (hL : 1 ≤ L) (h4 : 4 * L < 2 ^ 64) (ha : a + 2 * L < 2 ^ 64)
    (hslot : a ≤ slot ∧ slot ≤ a + L) (hnear : ∀ t ∈ d.slots.keys, a ≤ t ∧ t ≤ a + L) (t : ℕ) :
    (d.settle slot state stats segments).slotState t = if t = slot then state else d.slotState t := by
  by_cases ht : t = slot ∨ t ∈ d.slots.keys
  · exact settle_slotState ((settle_near hW hL h4 ha hslot hnear t).mpr ht)
  · have hgone : (d.settle slot state stats segments).slots.find t = none := by
      rw [OrdMap.find_eq_none_iff, settle_near hW hL h4 ha hslot hnear]
      exact ht
    rw [not_or] at ht
    rw [if_neg ht.1, slotState, slotState, hgone, (OrdMap.find_eq_none_iff ..).mpr ht.2]

end

/- What holds after some leader shreds of slots in `[a, a + L]`. -/
structure Delivering (blocks : ℕ → Block) (config : Config) (rs : ReedSolomon) (a : ℕ) (packets : List Bytes)
    (d : Deshredder) (out : List RawBatch) : Prop extends WindowInv config.slotLookback d where
  config_eq : d.config = config
  rs_eq : d.rs = rs
  near : ∀ t ∈ d.slots.keys, a ≤ t ∧ t ≤ a + config.slotLookback
  highest : d.highestSlot ≤ a + config.slotLookback
  tracks : ∀ t, Tracks (blocks t) config.recover (arrivals packets t) (d.slotState t)
  nodup : out.Nodup
  mem_out : ∀ b, b ∈ out ↔ (d.slotState b.slot).Run b.shreds.1 b.shreds.2 ∧
    b = leaderBatch blocks b.slot b.shreds.1 b.shreds.2

variable {blocks : ℕ → Block} {config : Config} {rs : ReedSolomon} {a version : ℕ} {packets : List Bytes}
  {packet : Bytes} {d : Deshredder} {out : List RawBatch} {x : Shred} {Codeword : List Bytes → Prop}

theorem Delivering.new (blocks : ℕ → Block) (config : Config) (rs : ReedSolomon) (a : ℕ) :
    Delivering blocks config rs a [] (new config rs) [] where
  toWindowInv := WindowInv.new config rs
  config_eq := rfl
  rs_eq := rfl
  near := by simp [Deshredder.new]
  highest := Nat.zero_le _
  tracks t := Tracks.empty _ _
  nodup := List.nodup_nil
  mem_out b := by
    have hno : ¬ ((Deshredder.new config rs).slotState b.slot).Run b.shreds.1 b.shreds.2 := by
      intro hr
      have hc := hr.closed
      simp [slotState, Deshredder.new, SlotState.empty] at hc
    simp [hno]

/- A datagram with a shred of one of the blocks. -/
structure FromLeader (blocks : ℕ → Block) (a L : ℕ) (packet : Bytes) (x : Shred) : Prop where
  parsed : Shred.parse packet = .ok x
  sent : (blocks x.slot).Sends x
  near : a ≤ x.slot ∧ x.slot ≤ a + L

theorem Delivering.admitted (h : Delivering blocks config rs a packets d out)
    (ha : a + 2 * config.slotLookback < 2 ^ 64) (hB : ∀ t, (blocks t).Consistent Codeword t version)
    (hv : config.shredVersion = none ∨ config.shredVersion = some version)
    (hx : FromLeader blocks a config.slotLookback packet x) : Admitted d packet x := by
  refine ⟨hx.parsed, ?_, ?_⟩
  · obtain ⟨S, hS, hq⟩ := hx.sent
    have hver := (hB _ _ S hS).version x.position
    rw [hq] at hver
    rw [wrongVersion, h.config_eq]
    rcases hv with hv | hv
    · simp [hv]
    · simp [hv, hver]
  · obtain ⟨h1, h2⟩ := hx.near
    have hle := h.highest
    have hiff := isStale_iff (d := d) h.slotLookback (x := x) (by omega)
    rw [← Bool.not_eq_true, hiff]
    omega

omit [Hasher] in
theorem recoverWith_rebuilds (hc : d.config = config) (hr : d.rs = rs) (hrs : rs.Rebuilds Codeword) :
    (∀ r, d.recoverWith = some r → config.recover = true ∧ r.Rebuilds Codeword) ∧
      (config.recover = true → d.recoverWith ≠ none) := by
  rw [recoverWith, hc, hr]
  constructor
  · intro r hsome
    split at hsome
    · rename_i hrec
      exact ⟨hrec, (Option.some.inj hsome) ▸ hrs⟩
    · contradiction
  · intro hrec
    rw [if_pos hrec]
    simp

omit [Hasher] in
theorem mem_leaderBatches {slot : ℕ} {segments : List Segment}
    (h : ∀ seg ∈ segments, seg = (blocks slot).segment seg.shreds.1 seg.shreds.2) (b : RawBatch) :
    b ∈ segments.map (rawBatch slot) ↔ b.slot = slot ∧ b.shreds ∈ segments.map Segment.shreds ∧
      b = leaderBatch blocks b.slot b.shreds.1 b.shreds.2 := by
  constructor
  · intro hb
    obtain ⟨seg, hseg, rfl⟩ := List.mem_map.mp hb
    refine ⟨rfl, List.mem_map.mpr ⟨seg, hseg, rfl⟩, ?_⟩
    show rawBatch slot seg = rawBatch slot ((blocks slot).segment seg.shreds.1 seg.shreds.2)
    rw [← h seg hseg]
  · intro ⟨hslot, hmem, heq⟩
    obtain ⟨seg, hseg, hsh⟩ := List.mem_map.mp hmem
    refine List.mem_map.mpr ⟨seg, hseg, ?_⟩
    rw [heq, leaderBatch, hslot, ← hsh, ← h seg hseg]

theorem Delivering.pushed (h : Delivering blocks config rs a packets d out) (hL : 1 ≤ config.slotLookback)
    (h4 : 4 * config.slotLookback < 2 ^ 64) (ha : a + 2 * config.slotLookback < 2 ^ 64)
    (hB : ∀ t, (blocks t).Consistent Codeword t version)
    (hv : config.shredVersion = none ∨ config.shredVersion = some version) (hrs : rs.Rebuilds Codeword)
    (hx : FromLeader blocks a config.slotLookback packet x) :
    ∃ d' out', d.pushRaw packet = .ok (d', out') ∧
      Delivering blocks config rs a (packets ++ [packet]) d' (out ++ out') := by
  have hadm := h.admitted ha hB hv hx
  obtain ⟨S, hS, hq⟩ := hx.sent
  have hset : x.fecSetIndex ≤ 32736 := (hB _ _ S hS).inRange
  have hI := h.slots.slotState x.slot
  have hW := h.toWindowInv
  obtain ⟨h1, h2⟩ := hx.near
  obtain ⟨mid, fresh, state, stats, segments, _, hok, hI', hins⟩ := SlotState.insert_cases hI hset
    d.recoverWith { d.stats with packets := d.stats.packets + 1 }
  have hpush := pushRaw_admitted hadm
  simp only [hok] at hpush
  refine ⟨_, _, hpush, ?_⟩
  obtain ⟨hrsome, hrnone⟩ := recoverWith_rebuilds h.config_eq h.rs_eq hrs
  have hone := (h.tracks x.slot).inserted hI (hB x.slot).sets hx.sent hrsome hrnone hins
  have hbatch := mem_leaderBatches fun seg hseg => (hone.segments seg hseg).2
  have hslots : ∀ t, (d.settle x.slot state stats segments).slotState t =
      if t = x.slot then state else d.slotState t := settle_near_slotState hW hL h4 ha hx.near h.near
  have hrange : InRange config.slotLookback packet := by
    intro y hy
    obtain rfl := Except.ok.inj (hy.symm.trans hx.parsed)
    omega
  refine ⟨hW.pushed hrange (pushRaw_cases hpush), h.config_eq, h.rs_eq, ?_, ?_, ?_, ?_, ?_⟩
  · intro t ht
    rcases (settle_near hW hL h4 ha hx.near h.near t).mp ht with rfl | ht
    · exact hx.near
    · exact h.near t ht
  · exact settle_highest_le h2 h.highest
  · intro t
    rw [hslots, arrivals_snoc hx.parsed]
    by_cases ht : t = x.slot
    · rw [if_pos ht, if_pos ht, ht]
      exact hone.tracks
    · rw [if_neg ht, if_neg ht]
      exact h.tracks t
  · rw [List.nodup_append]
    refine ⟨h.nodup, ?_, ?_⟩
    · have hnd : segments.Nodup := hins.nodup.of_map _
      apply hnd.map_on
      intro s hs s' hs' heq
      have hshreds : s.shreds = s'.shreds := congrArg RawBatch.shreds heq
      rw [(hone.segments s hs).2, (hone.segments s' hs').2, hshreds]
    · intro b hb b' hb' heq
      subst heq
      obtain ⟨hslot, hmem, _⟩ := (hbatch b).mp hb'
      have hold := ((h.mem_out b).mp hb).1
      rw [hslot] at hold
      exact ((hins.out_iff _ _).mp hmem).2 hold
  · intro b
    rw [List.mem_append, h.mem_out, hbatch, hslots]
    by_cases ht : b.slot = x.slot
    · rw [if_pos ht, hone.run_iff, or_and_right, ht]
      exact or_congr_right (and_iff_right rfl)
    · rw [if_neg ht]
      exact or_iff_left fun hnew => ht hnew.1

theorem pushAll_delivering (packets : List Bytes) (hL : 1 ≤ config.slotLookback)
    (h4 : 4 * config.slotLookback < 2 ^ 64) (ha : a + 2 * config.slotLookback < 2 ^ 64)
    (hB : ∀ t, (blocks t).Consistent Codeword t version)
    (hv : config.shredVersion = none ∨ config.shredVersion = some version) (hrs : rs.Rebuilds Codeword)
    (hp : ∀ b ∈ packets, ∃ x, FromLeader blocks a config.slotLookback b x) :
    ∃ d out, (new config rs).pushAll packets = .ok (d, out) ∧ Delivering blocks config rs a packets d out := by
  induction packets using List.reverseRecOn with
  | nil => exact ⟨_, [], rfl, Delivering.new blocks config rs a⟩
  | append_singleton packets packet ih =>
    obtain ⟨d, out, hrun, hD⟩ := ih fun b hb => hp b (by simp [hb])
    obtain ⟨x, hx⟩ := hp packet (by simp)
    obtain ⟨d', out', hstep, hD'⟩ := hD.pushed hL h4 ha hB hv hrs hx
    exact ⟨d', out ++ out', Steps.runAll_snoc_ok.mpr ⟨d, out, out', hrun, hstep, rfl⟩, hD'⟩

/-- Whatever the order and the duplicates, the runs of the blocks that arrived or can
be recovered are handed out, each once. -/
theorem delivers_exactly (blocks : ℕ → Block) (Codeword : List Bytes → Prop) (config : Config) (rs : ReedSolomon)
    (version a : ℕ) (packets : List Bytes) (hL : 1 ≤ config.slotLookback)
    (h4 : 4 * config.slotLookback < 2 ^ 64) (ha : a + 2 * config.slotLookback < 2 ^ 64)
    (hB : ∀ t, (blocks t).Consistent Codeword t version)
    (hv : config.shredVersion = none ∨ config.shredVersion = some version) (hrs : rs.Rebuilds Codeword)
    (hp : ∀ b ∈ packets, ∃ x, FromLeader blocks a config.slotLookback b x) :
    ∃ d out, (new config rs).pushAll packets = .ok (d, out) ∧ out.Nodup ∧
      ∀ b, b ∈ out ↔
        (blocks b.slot).Delivered config.recover (arrivals packets b.slot) b.shreds.1 b.shreds.2 ∧
        b = leaderBatch blocks b.slot b.shreds.1 b.shreds.2 := by
  obtain ⟨d, out, hrun, hD⟩ := pushAll_delivering packets hL h4 ha hB hv hrs hp
  refine ⟨d, out, hrun, hD.nodup, fun b => ?_⟩
  rw [hD.mem_out, (hD.tracks b.slot).run_iff (hD.slots.slotState b.slot).toAssembling]

/-- A shred that is a run of its own has been handed out when it can be delivered. -/
theorem Delivering.consumed (h : Delivering blocks config rs a packets d out) {t i : ℕ}
    (hdel : (blocks t).Delivered config.recover (arrivals packets t) i i) : i ∈ (d.slotState t).consumed.ones := by
  have hI := h.slots.slotState t
  exact hI.emitted i i (((h.tracks t).run_iff hI.toAssembling i i).mpr hdel)

/-! ### Datagrams of the sample block -/

section
variable {slot : ℕ} (hs : slot < 2 ^ 64) {content : Bytes} (hc : content.length ≤ 963)

/- The sample block in its slot, nothing in the others. -/
def carriedBlocks : ℕ → Block := fun t => if t = slot then carriedBlock hs hc else fun _ => none

def carriedPacket (place : Fin 1024 × Position) : Bytes := ((carriedSet hs place.1 hc).shred place.2).bytes

theorem carriedBlocks_slot : carriedBlocks hs hc slot = carriedBlock hs hc := if_pos rfl

theorem carriedBlocks_consistent (t : ℕ) : (carriedBlocks hs hc t).Consistent (CarriedCodeword slot content) t 0 := by
  rw [carriedBlocks]
  split
  · rename_i ht
    rw [ht]
    exact carriedBlock_consistent hs hc
  · intro f S hS
    contradiction

theorem carriedPacket_fromLeader {place : Fin 1024 × Position} (hp : place.1 = 0 ∨ place.1 = 1) (L : ℕ) :
    FromLeader (carriedBlocks hs hc) slot L (carriedPacket hs hc place) ((carriedSet hs place.1 hc).shred place.2) := by
  have hslot := (carriedSet_consistent hs hc place.1).slot place.2
  obtain ⟨h0, h1⟩ := carriedBlock_sends hs hc place.2
  refine ⟨Shred.parse_bytes _, ?_, by omega⟩
  rw [hslot, carriedBlocks, if_pos rfl]
  rcases hp with hp | hp
  · rw [hp]
    exact h0
  · rw [hp]
    exact h1

theorem carriedPacket_length (place : Fin 1024 × Position) : (carriedPacket hs hc place).length ≤ 1228 := by
  rw [carriedPacket, Shred.bytes_length]
  cases ((carriedSet hs place.1 hc).shred place.2).kind with
  | data => decide
  | code => decide

theorem arrivedAt_arrivals (places : List (Fin 1024 × Position)) :
    ArrivedAt places (arrivals (places.map (carriedPacket hs hc)) slot) := by
  intro n q
  rw [arrivals, List.mem_toFinset, List.filterMap_map, List.mem_filterMap]
  constructor
  · rintro ⟨⟨m, r⟩, ha, hat⟩
    have hC := carriedSet_consistent hs hc m
    have hparse := Shred.parse_bytes ((carriedSet hs m hc).shred r)
    simp only [Function.comp, arrivedAt, carriedPacket, hparse, hC.fecSetIndex r, hC.position r] at hat
    split at hat
    · rename_i hset
      obtain rfl : m = n := Fin.ext (by omega)
      rwa [← Option.some.inj hat]
    · contradiction
  · intro ha
    have hC := carriedSet_consistent hs hc n
    have hparse := Shred.parse_bytes ((carriedSet hs n hc).shred q)
    refine ⟨_, ha, ?_⟩
    simp only [Function.comp, arrivedAt, carriedPacket, hparse, hC.slot q, hC.fecSetIndex q, hC.position q, and_self,
      ↓reduceIte]

theorem arrivals_other {places : List (Fin 1024 × Position)} (hp : ∀ a ∈ places, a.1 = 0) {t f : ℕ}
    (hne : ¬ (t = slot ∧ f = 0)) : arrivals (places.map (carriedPacket hs hc)) t f = ∅ := by
  rw [arrivals, List.toFinset_eq_empty_iff, List.filterMap_map, List.filterMap_eq_nil_iff]
  intro a ha
  have hC := carriedSet_consistent hs hc a.1
  have hparse := Shred.parse_bytes ((carriedSet hs a.1 hc).shred a.2)
  have hzero : 32 * (a.1 : ℕ) = 0 := by
    rw [hp a ha]
    rfl
  simp only [Function.comp, arrivedAt, carriedPacket, hparse, hC.slot a.2, hC.fecSetIndex a.2, hzero]
  exact if_neg fun h => hne ⟨h.1.symm, h.2.symm⟩

/-- A fresh Deshredder with datagrams of the sample block. -/
theorem carried_delivering (ha : slot + 2 * 64 < 2 ^ 64) (recover : Bool) {places : List (Fin 1024 × Position)}
    (hp : ∀ a ∈ places, a.1 = 0 ∨ a.1 = 1) : ∃ d out,
      (new ⟨none, 64, recover⟩ (carriedRs slot content)).pushAll (places.map (carriedPacket hs hc)) = .ok (d, out) ∧
      Delivering (carriedBlocks hs hc) ⟨none, 64, recover⟩ (carriedRs slot content) slot
        (places.map (carriedPacket hs hc)) d out := by
  refine pushAll_delivering _ (show 1 ≤ 64 by decide) (show 4 * 64 < 2 ^ 64 by decide) ha
    (carriedBlocks_consistent hs hc) (.inl rfl)
    (carriedRs_rebuilds slot content) fun b hb => ?_
  obtain ⟨place, hplace, rfl⟩ := List.mem_map.mp hb
  exact ⟨_, carriedPacket_fromLeader hs hc (hp place hplace) 64⟩

/-- When the first `n` shreds of the block are there, so many batches came out. -/
theorem Delivering.carried_out {config : Config} {rs : ReedSolomon} {first n : ℕ} {packets : List Bytes} {d : Deshredder}
    {out : List RawBatch} (h : Delivering (carriedBlocks hs hc) config rs first packets d out)
    (havail : ∀ i, (carriedBlock hs hc).Available config.recover (arrivals packets slot) i ↔ i < n) (b : RawBatch) :
    b ∈ out ↔ ∃ i < n, b = leaderBatch (carriedBlocks hs hc) slot i i := by
  rw [h.mem_out, (h.tracks b.slot).run_iff (h.slots.slotState b.slot).toAssembling]
  constructor
  · rintro ⟨hdel, heq⟩
    have hslot : b.slot = slot := by
      by_contra hne
      have hsome := (hdel.available _ le_rfl hdel.le).1
      rw [carriedBlocks, if_neg hne] at hsome
      contradiction
    rw [hslot, carriedBlocks_slot, carried_delivered_first hs hc havail] at hdel
    rw [hslot, ← hdel.1] at heq
    exact ⟨_, hdel.2, heq⟩
  · rintro ⟨i, hi, rfl⟩
    refine ⟨?_, rfl⟩
    show (carriedBlocks hs hc slot).Delivered config.recover (arrivals packets slot) i i
    rw [carriedBlocks_slot, carried_delivered_first hs hc havail]
    exact ⟨rfl, hi⟩

/- After the code shreds of the first set nothing of it is left. -/
theorem Delivering.carried_consumed {rs : ReedSolomon} {p : Fin 32} {d : Deshredder} {out : List RawBatch}
    (h : Delivering (carriedBlocks hs hc) ⟨none, 64, true⟩ rs slot ((secondPlaces p).map (carriedPacket hs hc)) d out) :
    (d.slotState slot).SetConsumed 0 := by
  have havail := secondPlaces_available hs hc (arrivedAt_arrivals hs hc (secondPlaces p))
  intro j _ hj
  refine h.consumed ?_
  rw [carriedBlocks_slot, carried_delivered_iff, havail, havail]
  exact ⟨rfl, .inl (by omega), .inr (.inl (by omega))⟩

theorem Delivering.carried_perm {config : Config} {rs : ReedSolomon} {first n : ℕ} {packets : List Bytes} {d : Deshredder}
    {out : List RawBatch} (h : Delivering (carriedBlocks hs hc) config rs first packets d out)
    (havail : ∀ i, (carriedBlock hs hc).Available config.recover (arrivals packets slot) i ↔ i < n) :
    out.Perm ((List.range n).map fun i => leaderBatch (carriedBlocks hs hc) slot i i) := by
  have hnd : ((List.range n).map fun i => leaderBatch (carriedBlocks hs hc) slot i i).Nodup :=
    List.nodup_range.map fun i j heq => congrArg (fun b : RawBatch => b.shreds.1) heq
  refine (List.perm_ext_iff_of_nodup h.nodup hnd).mpr fun b => ?_
  rw [h.carried_out hs hc havail, List.mem_map]
  simp only [List.mem_range, eq_comm]

end

omit [Hasher] in
/-- A set is recovered, the next one starts, and two of the datagrams come again. -/
theorem delivers_sample :
    let packets := (carriedPlaces ++ [(1, Position.data 0), (0, Position.code 3)]).map (@carriedPacket sha256Hasher 7 sampleSlot_lt [] nil_fits)
    let blocks := @carriedBlocks sha256Hasher 7 sampleSlot_lt [] nil_fits
    ∃ d out, @pushAll sha256Hasher (new ⟨none, 64, true⟩ (carriedRs 7 [])) packets = .ok (d, out) ∧ out.Nodup ∧
      ∀ b, b ∈ out ↔ (blocks b.slot).Delivered true (arrivals packets b.slot) b.shreds.1 b.shreds.2 ∧
        b = leaderBatch blocks b.slot b.shreds.1 b.shreds.2 := by
  let : Hasher := sha256Hasher
  intro packets blocks
  refine delivers_exactly blocks (CarriedCodeword 7 []) ⟨none, 64, true⟩ _ 0 7 packets (by decide) (by decide)
    (by decide) (carriedBlocks_consistent sampleSlot_lt nil_fits) (.inl rfl) (carriedRs_rebuilds 7 []) fun b hb => ?_
  obtain ⟨place, hplace, rfl⟩ := List.mem_map.mp hb
  refine ⟨_, carriedPacket_fromLeader sampleSlot_lt nil_fits ?_ 64⟩
  rcases List.mem_append.mp hplace with hplace | hplace
  · exact carriedPlaces_sets _ hplace
  · simp only [List.mem_cons, List.not_mem_nil, or_false] at hplace
    rcases hplace with rfl | rfl
    · exact .inr rfl
    · exact .inl rfl

end Deshredder
end Deshred
