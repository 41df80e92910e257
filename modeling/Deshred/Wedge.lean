import Deshred.Codeword
import Deshred.Feeding
import Deshred.Window

/-!
# When a Deshredder full of incomplete slots goes on

The memory bound drops the highest slot there is. With all places taken by lower slots
that is the slot just created, unless its first shred is a whole run: then the window
moves and makes room.
-/

namespace Deshred

/- Data positions only. -/
def dataPlaces (P : Finset (Fin 32)) : Finset Position := P.map ⟨Position.data, fun _ _ h => Position.data.inj h⟩

theorem mem_dataPlaces {P : Finset (Fin 32)} {p : Fin 32} : .data p ∈ dataPlaces P ↔ p ∈ P := by
  rw [dataPlaces, Finset.mem_map]
  constructor
  · intro ⟨r, hr, he⟩
    exact Position.data.inj he ▸ hr
  · exact fun hp => ⟨p, hp, rfl⟩

theorem dataPlaces_insert (P : Finset (Fin 32)) (p : Fin 32) :
    dataPlaces (insert p P) = insert (.data p) (dataPlaces P) := Finset.map_insert ..

theorem dataPlaces_card {P : Finset (Fin 32)} {r : Fin 32} (h : .data r ∉ dataPlaces P) : (dataPlaces P).card < 32 := by
  rw [mem_dataPlaces] at h
  rw [dataPlaces, Finset.card_map]
  have hlt := Finset.card_lt_univ_of_notMem h
  rwa [Fintype.card_fin] at hlt

namespace Deshredder

section
variable {L slot : ℕ} {d : Deshredder} {state : SlotState} {stats : Stats} {segments : List Segment}

theorem kept_keys_subset : (d.kept slot state segments).keys ⊆ insert slot d.slots.keys := by
  intro t ht
  rw [OrdMap.mem_keys] at ht
  rcases @kept_find d slot state segments t with hf | hf
  · rw [hf, ← OrdMap.mem_keys, OrdMap.insert_keys] at ht
    exact ht
  · rw [hf] at ht
    contradiction

theorem mem_kept (hL : d.config.slotLookback = L) (hslot : slot + L < 2 ^ 64) (hle : ∀ t ∈ d.slots.keys, t ≤ slot) :
    slot ∈ (d.kept slot state segments).keys ∧
      (d.advances slot segments = true → ∀ t ∈ (d.kept slot state segments).keys, slot ≤ t + L) := by
  have hold : ∀ t ∈ d.slots.keys, t + L < 2 ^ 64 := by
    intro t ht
    have := hle t ht
    omega
  have hr := @inserted_range L d slot state hslot hold
  unfold kept
  split
  · refine ⟨(prune_keys hL hr).mpr ⟨by simp, by omega⟩, fun _ t ht => ((prune_keys hL hr).mp ht).2⟩
  · rename_i hadv
    exact ⟨by simp, fun h => absurd h hadv⟩

theorem settle_roomy (hL : d.config.slotLookback = L) (h4 : 4 * L < 2 ^ 64) (hslot : slot + L < 2 ^ 64)
    (hle : ∀ t ∈ d.slots.keys, t ≤ slot) (hroom : (insert slot d.slots.keys).card ≤ 4 * L) :
    slot ∈ (d.settle slot state stats segments).slots.keys := by
  rw [settle_keys, hL, wrappingMul_of_lt h4]
  refine ⟨(mem_kept hL hslot hle).1, ?_⟩
  exact (Finset.card_le_card ((Finset.filter_subset ..).trans kept_keys_subset)).trans hroom

theorem settle_advanced (hL : d.config.slotLookback = L) (h1 : 1 ≤ L) (h4 : 4 * L < 2 ^ 64) (hslot : slot + L < 2 ^ 64)
    (hle : ∀ t ∈ d.slots.keys, t ≤ slot) (hadv : d.advances slot segments = true) :
    slot ∈ (d.settle slot state stats segments).slots.keys ∧
      (d.settle slot state stats segments).slots.keys.card ≤ 4 * L := by
  have hkept := @mem_kept L slot d state segments hL hslot hle
  have hsub : (d.kept slot state segments).keys ⊆ Finset.Icc (slot - L) slot := by
    intro t ht
    have hlo := hkept.2 hadv t ht
    rw [Finset.mem_Icc]
    rcases Finset.mem_insert.mp (kept_keys_subset ht) with rfl | hmem
    · omega
    · have := hle t hmem
      omega
  have hcard := Finset.card_le_card hsub
  rw [Nat.card_Icc] at hcard
  have hkeys : ∀ t, t ∈ (d.settle slot state stats segments).slots.keys → t ∈ (d.kept slot state segments).keys :=
    fun t ht => (settle_keys.mp ht).1
  refine ⟨?_, ?_⟩
  · rw [settle_keys, hL, wrappingMul_of_lt h4]
    have hfilter := Finset.card_filter_le (d.kept slot state segments).keys (· ≤ slot)
    exact ⟨hkept.1, by omega⟩
  · have hle := Finset.card_le_card hkeys
    omega

/-- With nothing completed, the slot of a push is left out only if it is new, all places
are taken and it comes last. -/
theorem mem_settle_nil {n : ℕ} (hn : wrappingMul 4 d.config.slotLookback = n) (hsize : d.slots.size ≤ n) :
    slot ∈ (d.settle slot state stats []).slots.keys ↔
      ¬ (slot ∉ d.slots.keys ∧ d.slots.size = n ∧ ∀ t ∈ d.slots.keys, t < slot) := by
  have hcard : d.slots.size = d.slots.keys.card := rfl
  have hfilter := Finset.card_filter_le (insert slot d.slots.keys) (· ≤ slot)
  rw [settle_nil_keys, hn]
  constructor
  · intro ⟨_, hle⟩ ⟨hnew, hfull, hlast⟩
    have hall : (insert slot d.slots.keys).filter (· ≤ slot) = insert slot d.slots.keys := by
      rw [Finset.filter_eq_self]
      intro t ht
      rcases Finset.mem_insert.mp ht with rfl | ht
      · exact le_rfl
      · exact (hlast t ht).le
    rw [hall, Finset.card_insert_of_notMem hnew] at hle
    omega
  · intro hno
    refine ⟨Finset.mem_insert_self .., ?_⟩
    by_cases hheld : slot ∈ d.slots.keys
    · rw [Finset.insert_eq_of_mem hheld] at hfilter ⊢
      omega
    · rw [Finset.card_insert_of_notMem hheld] at hfilter
      by_cases hfull : d.slots.size = n
      · -- a slot above it is held, and not counted
        have hnot : ¬ ∀ t ∈ d.slots.keys, t < slot := fun hlast => hno ⟨hheld, hfull, hlast⟩
        simp only [not_forall, not_lt] at hnot
        obtain ⟨t, ht, hle⟩ := hnot
        have hne : t ≠ slot := fun he => hheld (he ▸ ht)
        have hlt : ((insert slot d.slots.keys).filter (· ≤ slot)).card < (insert slot d.slots.keys).card := by
          apply Finset.card_lt_card
          refine ⟨Finset.filter_subset .., fun hsub => ?_⟩
          have hmem := (Finset.mem_filter.mp (hsub (Finset.mem_insert_of_mem ht))).2
          omega
        rw [Finset.card_insert_of_notMem hheld] at hlt
        omega
      · omega

/-- With all places taken by lower slots, a slot that completes nothing is gone again. -/
theorem settle_full (hL : d.config.slotLookback = L) (h4 : 4 * L < 2 ^ 64) (hlt : ∀ t ∈ d.slots.keys, t < slot)
    (hfull : d.slots.keys.card = 4 * L) : slot ∉ (d.settle slot state stats []).slots.keys := by
  have hn : wrappingMul 4 d.config.slotLookback = 4 * L := by rw [hL, wrappingMul_of_lt h4]
  rw [mem_settle_nil hn hfull.le]
  exact not_not_intro ⟨fun h => lt_irrefl _ (hlt slot h), hfull, hlt⟩

end

variable [Hasher]

/-- The 32 data shreds of a consistent FEC set 0 of a slot, of a version the
configuration accepts; the last one ends a run. -/
structure ConsistentData (config : Config) (s : ℕ) (root : Hash32) (signature : Signature)
    (D : Fin 32 → Shred) : Prop where
  position : ∀ p, (D p).position = .data p
  fecSetIndex : ∀ p, (D p).fecSetIndex = 0
  slot : ∀ p, (D p).slot = s
  version : ∀ p, config.shredVersion = none ∨ config.shredVersion = some (D p).version
  signature : ∀ p, (D p).signature = signature
  merkleRoot : ∀ p, (D p).merkleRoot = some root
  closes : (D 31).dataComplete = true

/-- The batches of slot `s` among `out` together cover shreds 0 to 31. -/
def Covers (s : ℕ) (out : List RawBatch) : Prop :=
  ∀ i < 32, ∃ b ∈ out, b.slot = s ∧ b.shreds.1 ≤ i ∧ i ≤ b.shreds.2

variable {config : Config} {s : ℕ} {root : Hash32} {signature : Signature} {D : Fin 32 → Shred}
  {P : Finset (Fin 32)} {p : Fin 32} {d : Deshredder} {out : List RawBatch} {packet : Bytes}

/- Only data positions are ever looked at. -/
abbrev dataSet (D : Fin 32 → Shred) : LeaderSet := ⟨D, D⟩

theorem ConsistentData.sealed (h : ConsistentData config s root signature D) (p : Fin 32) :
    (dataSet D).Sealed 0 root signature (.data p) :=
  ⟨h.position p, h.fecSetIndex p, h.signature p, h.merkleRoot p⟩

theorem push_fed (hC : ConsistentData config s root signature D) (hI : SlotsInv d)
    (hfed : Fed (dataSet D) 0 root signature (dataPlaces P) (d.slotState s)) (hp : p ∉ P)
    (hx : Admitted d packet (D p)) : ∃ state stats segments,
      d.pushRaw packet = .ok (d.settle s state stats segments, segments.map (rawBatch s)) ∧
      Fed (dataSet D) 0 root signature (dataPlaces (insert p P)) state ∧
      ∀ a e, (a, e) ∈ segments.map Segment.shreds ↔ state.Run a e ∧ ¬ (d.slotState s).Run a e := by
  have hslot := hC.slot p
  have hset : (D p).fecSetIndex ≤ 32736 := by
    have := hC.fecSetIndex p
    omega
  have hIs := hI.slotState s
  obtain ⟨mid, fresh, state, stats, segments, _, hok, _, hins⟩ := SlotState.insert_cases hIs hset
    d.recoverWith { d.stats with packets := d.stats.packets + 1 }
  have hpush := pushRaw_admitted hx
  rw [hslot] at hpush
  simp only [hok] at hpush
  have hq : .data p ∉ dataPlaces P := by rwa [mem_dataPlaces]
  have hfew : ∀ r, .data r ∉ insert (.data p) (dataPlaces P) → (insert (.data p) (dataPlaces P) : Finset Position).card < 32 := by
    intro r hr
    rw [← dataPlaces_insert] at hr ⊢
    exact dataPlaces_card hr
  have hmid := hfed.stored hIs (hC.sealed p) rfl hq hq hfew hins.stored
  rw [← dataPlaces_insert] at hmid
  refine ⟨state, stats, segments, hpush, hmid.emitting hins.toEmitting, fun a e => ?_⟩
  rw [hins.out_iff]
  simp only [SlotState.Run, hins.received, hins.complete]

/-! ### With room -/

/- The slot is held, and what it completed was handed out. -/
structure Filling (config : Config) (s : ℕ) (root : Hash32) (signature : Signature) (D : Fin 32 → Shred)
    (P : Finset (Fin 32)) (d : Deshredder) (out : List RawBatch) : Prop where
  config_eq : d.config = config
  slots : SlotsInv d
  below : ∀ t ∈ d.slots.keys, t ≤ s
  room : (insert s d.slots.keys).card ≤ 4 * config.slotLookback
  highest : d.highestSlot ≤ s
  fed : Fed (dataSet D) 0 root signature (dataPlaces P) (d.slotState s)
  emitted : ∀ a e, (d.slotState s).Run a e → ∃ b ∈ out, b.slot = s ∧ b.shreds = (a, e)

theorem admitted_data (hC : ConsistentData config s root signature D) (hc : d.config = config)
    (hs : s + config.slotLookback < 2 ^ 64) (hle : d.highestSlot ≤ s) (hp : Shred.parse packet = .ok (D p)) :
    Admitted d packet (D p) := by
  refine ⟨hp, ?_, ?_⟩
  · rw [wrongVersion, hc]
    rcases hC.version p with hv | hv
    · simp [hv]
    · simp [hv]
  · have hslot := hC.slot p
    have hiff := isStale_iff (d := d) (L := config.slotLookback) (by rw [hc]) (x := D p) (by omega)
    rw [← Bool.not_eq_true, hiff]
    omega

theorem Filling.pushed (hC : ConsistentData config s root signature D) (h4 : 4 * config.slotLookback < 2 ^ 64)
    (hs : s + config.slotLookback < 2 ^ 64) (h : Filling config s root signature D P d out) (hp : p ∉ P)
    (hparse : Shred.parse packet = .ok (D p)) : ∃ d' out', d.pushRaw packet = .ok (d', out') ∧
      Filling config s root signature D (insert p P) d' (out ++ out') := by
  have hx := admitted_data hC h.config_eq hs h.highest hparse
  obtain ⟨state, stats, segments, hpush, hfed, hout⟩ := push_fed hC h.slots h.fed hp hx
  have hheld : s ∈ (d.settle s state stats segments).slots.keys :=
    settle_roomy (congrArg Config.slotLookback h.config_eq) h4 hs h.below h.room
  have hstate : (d.settle s state stats segments).slotState s = state := by
    rw [settle_slotState hheld, if_pos rfl]
  have hsub : (d.settle s state stats segments).slots.keys ⊆ insert s d.slots.keys := fun t ht => settle_keys_subset ht
  refine ⟨_, _, hpush, ⟨h.config_eq, h.slots.pushed (pushRaw_cases hpush), ?_, ?_, ?_, ?_, ?_⟩⟩
  · intro t ht
    rcases Finset.mem_insert.mp (hsub ht) with rfl | ht
    · exact le_rfl
    · exact h.below t ht
  · refine (Finset.card_le_card ?_).trans h.room
    intro t ht
    rcases Finset.mem_insert.mp ht with rfl | ht
    · exact Finset.mem_insert_self ..
    · exact hsub ht
  · exact settle_highest_le le_rfl h.highest
  · rw [hstate]
    exact hfed
  · intro a e hr
    rw [hstate] at hr
    by_cases hold : (d.slotState s).Run a e
    · obtain ⟨b, hb, hrest⟩ := h.emitted a e hold
      exact ⟨b, List.mem_append_left _ hb, hrest⟩
    · obtain ⟨seg, hseg, heq⟩ := List.mem_map.mp ((hout a e).mpr ⟨hr, hold⟩)
      exact ⟨rawBatch s seg, List.mem_append_right _ (List.mem_map.mpr ⟨seg, hseg, rfl⟩), rfl, heq⟩

theorem Filling.pushAll (hC : ConsistentData config s root signature D) (h4 : 4 * config.slotLookback < 2 ^ 64)
    (hs : s + config.slotLookback < 2 ^ 64) {sent : Fin 32 → Bytes} (hsent : ∀ p, Shred.parse (sent p) = .ok (D p))
    {order : List (Fin 32)} (hnd : order.Nodup) (hP : ∀ p ∈ order, p ∉ P)
    (h : Filling config s root signature D P d out) : ∃ d' out', d.pushAll (order.map sent) = .ok (d', out') ∧
      Filling config s root signature D (P ∪ order.toFinset) d' (out ++ out') :=
  Steps.runAll_distinct (R := fun P d out => Filling config s root signature D P d out)
    (fun _ _ _ p hp h => h.pushed hC h4 hs hp (hsent p)) hnd hP h

theorem Filling.covers (hC : ConsistentData config s root signature D)
    (h : Filling config s root signature D Finset.univ d out) : Covers s out := by
  intro i hi
  have hrec : ∀ j ≤ 31, j ∈ (d.slotState s).received.ones := by
    intro j hj
    have hlt : j < 32 := by omega
    have hmem := (h.fed.received_iff ⟨j, hlt⟩).mpr (mem_dataPlaces.mpr (Finset.mem_univ _))
    rwa [Nat.zero_add] at hmem
  have hcl : 31 ∈ (d.slotState s).complete.ones :=
    (h.fed.complete 31).mpr ⟨31, mem_dataPlaces.mpr (Finset.mem_univ _), rfl, hC.closes⟩
  obtain ⟨a, e, hr, h1, h2, _⟩ := Runs.exists_run_of_le hrec hcl (show i ≤ 31 by omega)
  obtain ⟨b, hb, hslot, hsh⟩ := h.emitted a e hr
  refine ⟨b, hb, hslot, ?_⟩
  rw [hsh]
  exact ⟨h1, h2⟩

/-! ### Without room -/

/- Whatever the slot holds now, the shred at `p₀` is not part of it. -/
structure Losing (s : ℕ) (root : Hash32) (signature : Signature) (D : Fin 32 → Shred) (P : Finset (Fin 32))
    (d : Deshredder) (out : List RawBatch) : Prop where
  slots : SlotsInv d
  fed : ∃ Q ⊆ P, Fed (dataSet D) 0 root signature (dataPlaces Q) (d.slotState s)
  covered : ∀ b ∈ out, b.slot = s → ∀ i, b.shreds.1 ≤ i → i ≤ b.shreds.2 → ∃ p ∈ P, i = (p : ℕ)

theorem Losing.pushed (hC : ConsistentData config s root signature D) (h : Losing s root signature D P d out)
    (hp : p ∉ P) (hparse : Shred.parse packet = .ok (D p)) : ∃ d' out', d.pushRaw packet = .ok (d', out') ∧
      Losing s root signature D (insert p P) d' (out ++ out') := by
  obtain ⟨Q, hQ, hfed⟩ := h.fed
  have hmono : ∀ {o : List RawBatch}, (∀ b ∈ o, b.slot = s → ∀ i, b.shreds.1 ≤ i → i ≤ b.shreds.2 → ∃ p ∈ P, i = (p : ℕ)) →
      ∀ b ∈ o, b.slot = s → ∀ i, b.shreds.1 ≤ i → i ≤ b.shreds.2 → ∃ r ∈ insert p P, i = (r : ℕ) := by
    intro o ho b hb hslot i h1 h2
    obtain ⟨r, hr, hi⟩ := ho b hb hslot i h1 h2
    exact ⟨r, Finset.mem_insert_of_mem hr, hi⟩
  obtain ⟨d', out', hok⟩ := push_data_returns h.slots hparse (Shred.position_data _ (hC.position p)).1
  refine ⟨d', out', hok, ?_⟩
  by_cases hx : Admitted d packet (D p)
  · obtain ⟨state, stats, segments, hpush, hfed', hout⟩ := push_fed hC h.slots hfed (fun hq => hp (hQ hq)) hx
    rw [hok, Except.ok.injEq, Prod.mk.injEq] at hpush
    obtain ⟨rfl, rfl⟩ := hpush
    have hsub : insert p Q ⊆ insert p P := Finset.insert_subset_insert p hQ
    refine ⟨h.slots.pushed (pushRaw_cases hok), ?_, ?_⟩
    · by_cases hheld : s ∈ (d.settle s state stats segments).slots.keys
      · refine ⟨insert p Q, hsub, ?_⟩
        rw [settle_slotState hheld, if_pos rfl]
        exact hfed'
      · refine ⟨∅, Finset.empty_subset _, ?_⟩
        rw [slotState, (OrdMap.find_eq_none_iff ..).mpr hheld]
        exact Fed.empty ..
    · intro b hb hslot i h1 h2
      rcases List.mem_append.mp hb with hb | hb
      · exact hmono h.covered b hb hslot i h1 h2
      · obtain ⟨seg, hseg, rfl⟩ := List.mem_map.mp hb
        have hr := ((hout _ _).mp (List.mem_map.mpr ⟨seg, hseg, rfl⟩)).1
        obtain ⟨r, hr, hi⟩ := (hfed'.received i).mp (hr.present i h1 h2)
        exact ⟨r, hsub (mem_dataPlaces.mp hr), by omega⟩
  · have hp := pushRaw_cases hok
    cases hp with
    | dropped stats _ =>
      rw [List.append_nil]
      exact ⟨h.slots, ⟨Q, hQ.trans (Finset.subset_insert ..), hfed⟩, hmono h.covered⟩
    | inserted x state stats stats' segments hx' _ =>
      rw [Except.ok.inj (hx'.parsed.symm.trans hparse)] at hx'
      exact absurd hx' hx

theorem Losing.pushAll (hC : ConsistentData config s root signature D) {sent : Fin 32 → Bytes}
    (hsent : ∀ p, Shred.parse (sent p) = .ok (D p)) {order : List (Fin 32)} (hnd : order.Nodup)
    (hP : ∀ p ∈ order, p ∉ P) (h : Losing s root signature D P d out) :
    ∃ d' out', d.pushAll (order.map sent) = .ok (d', out') ∧
      Losing s root signature D (P ∪ order.toFinset) d' (out ++ out') :=
  Steps.runAll_distinct (R := fun P d out => Losing s root signature D P d out)
    (fun _ _ _ p hp h => h.pushed hC hp (hsent p)) hnd hP h

/-! ### Filling all places -/

/-- A shred whose proof leads nowhere is rejected; its slot is there all the same. -/
theorem push_rejected (hI : SlotsInv d) {x : Shred} (hx : Admitted d packet x) (hset : x.fecSetIndex ≤ 32736)
    (hroot : x.merkleRoot = none) :
    ∃ state stats, d.pushRaw packet = .ok (d.settle x.slot state stats [], []) := by
  have hIs := hI.slotState x.slot
  obtain ⟨mid, fresh, state, stats, segments, _, hok, _, hins⟩ := SlotState.insert_cases hIs hset
    d.recoverWith { d.stats with packets := d.stats.packets + 1 }
  have hmarks := hins.marks hIs
  have hfresh : fresh = [] := by
    have hst := hins.stored
    cases hst with
    | dropped _ => rfl
    | turnedAway why _ _ _ _ => rfl
    | taken _ _ root set' indexes ht =>
      have hp := ht.accepts.proof
      rw [hroot] at hp
      contradiction
  have hnil : segments = [] := by
    by_contra hne
    obtain ⟨seg, hseg⟩ := List.exists_mem_of_ne_nil _ hne
    obtain ⟨hr, hold⟩ := (hins.out_iff _ _).mp (List.mem_map.mpr ⟨seg, hseg, rfl⟩)
    subst hfresh
    refine hold (hr.mono ?_ ?_ ?_)
    · exact fun i hi => ((hmarks.received i).mp hi).resolve_right (List.not_mem_nil)
    · exact fun i hi => (hmarks.complete_new i hi).resolve_right (List.not_mem_nil)
    · exact fun i hi _ => hmarks.complete_mono hi
  subst hnil
  refine ⟨state, stats, ?_⟩
  rw [pushRaw_admitted hx]
  simp only [hok, List.map_nil]

omit [Hasher] in
theorem settle_idle {L slot : ℕ} {state : SlotState} {stats : Stats} (hL : d.config.slotLookback = L)
    (h4 : 4 * L < 2 ^ 64) (hroom : (insert slot d.slots.keys).card ≤ 4 * L) :
    (d.settle slot state stats []).slots.keys = insert slot d.slots.keys ∧
      (d.settle slot state stats []).highestSlot = d.highestSlot := by
  refine ⟨?_, settle_nil_highestSlot⟩
  ext t
  rw [settle_nil_keys, hL, wrappingMul_of_lt h4]
  exact and_iff_left ((Finset.card_filter_le ..).trans hroom)

/- A data shred at index 1 without a proof. -/
def garbage (slot : ℕ) : Bytes := (DataPacket.blank slot 1 0).packet

theorem parse_garbage {slot : ℕ} (hs : slot < 2 ^ 64) : ∃ x, Shred.parse (garbage slot) = .ok x ∧ x.slot = slot ∧
    x.fecSetIndex = 0 ∧ x.merkleRoot = none := by
  have hv := DataPacket.blank_valid hs (show 1 < 32768 by decide) (.inl rfl)
  refine ⟨_, DataPacket.parse_packet _ hv, rfl, rfl, ?_⟩
  have hps : ((DataPacket.blank slot 1 0).shred hv).proofSize = 0 := by
    show ((0x90 : UInt8) &&& 0x0F).toNat = 0
    decide
  exact Shred.merkleRoot_of_no_proof hps (show (1 : ℕ) ≠ 0 by decide)

/-- As many rejected datagrams as there are places fill them all. -/
theorem garbage_fills {n : ℕ} {rs : ReedSolomon} (hv : config.shredVersion = none)
    (h4 : 4 * config.slotLookback < 2 ^ 64) (hn : n ≤ 4 * config.slotLookback) : ∃ d,
      (new config rs).pushAll ((List.range' 1 n).map garbage) = .ok (d, []) ∧ d.slots.keys = Finset.Icc 1 n ∧
      d.highestSlot = 0 := by
  induction n with
  | zero => exact ⟨new config rs, rfl, rfl, rfl⟩
  | succ n ih =>
    obtain ⟨d, hrun, hkeys, hhigh⟩ := ih (by omega)
    have hc := pushAll_config hrun
    obtain ⟨x, hx, hslot, hset, hroot⟩ := parse_garbage (show n + 1 < 2 ^ 64 by omega)
    have hadm : Admitted d (garbage (n + 1)) x :=
      ⟨hx, by simp [wrongVersion, hc, hv], by simp [isStale, hhigh]⟩
    obtain ⟨state, stats, hpush⟩ := push_rejected (slotsInv_of_pushAll hrun) hadm (by omega) hroot
    have hins : insert x.slot d.slots.keys = Finset.Icc 1 (n + 1) := by
      ext t
      rw [hslot, hkeys, Finset.mem_insert, Finset.mem_Icc, Finset.mem_Icc]
      omega
    have hroom : (insert x.slot d.slots.keys).card ≤ 4 * config.slotLookback := by
      rw [hins, Nat.card_Icc]
      omega
    obtain ⟨hk, hh⟩ := @settle_idle d config.slotLookback x.slot state stats (by rw [hc]) h4 hroom
    have hsplit : (List.range' 1 (n + 1)).map garbage = (List.range' 1 n).map garbage ++ [garbage (n + 1)] := by
      rw [List.range'_concat, List.map_append, Nat.add_comm]
      simp
    refine ⟨_, ?_, hk.trans hins, hh.trans hhigh⟩
    rw [hsplit]
    exact Steps.runAll_snoc_ok.mpr ⟨d, [], [], hrun, hpush, rfl⟩

/-! ### The first shred decides -/

/- A Deshredder that `s` is new to and above everything it knows. -/
structure Above (config : Config) (s : ℕ) (d : Deshredder) : Prop where
  config_eq : d.config = config
  slots : SlotsInv d
  size : d.slots.keys.card ≤ 4 * config.slotLookback
  highest : d.highestSlot < s
  held : ∀ t ∈ d.slots.keys, t < s

omit [Hasher] in
theorem Above.slotState (h : Above config s d) : d.slotState s = SlotState.empty := by
  have hnone : d.slots.find s = none :=
    (OrdMap.find_eq_none_iff ..).mpr fun hs => lt_irrefl _ (h.held s hs)
  rw [Deshredder.slotState, hnone, Option.getD_none]

theorem Above.pushed (h4 : 4 * config.slotLookback < 2 ^ 64) {packets : List Bytes} {rs : ReedSolomon}
    (hd : (new config rs).pushAll packets = .ok (d, out)) (hs : d.highestSlot < s)
    (hheld : ∀ t ∈ d.slots.keys, t < s) : Above config s d := by
  refine ⟨pushAll_config hd, slotsInv_of_pushAll hd, ?_, hs, hheld⟩
  have hc : ∀ is (d : Deshredder) os, Steps.runAll pushRaw (new config rs) is = .ok (d, os) →
      d.slots.keys.card ≤ 4 * config.slotLookback := by
    intro is d os hrun
    refine Steps.runAll_induct (P := fun _ (d : Deshredder) (_ : List RawBatch) =>
      d.slots.keys.card ≤ 4 * config.slotLookback) (by simp [new]) ?_ hrun
    intro is d os b d' out hrun hP hstep
    cases pushRaw_cases hstep with
    | dropped stats _ => exact hP
    | inserted x state stats stats' segments _ _ =>
      have hsize := @settle_size d x.slot state stats' segments
      rw [pushAll_config hrun, wrappingMul_of_lt h4] at hsize
      exact hsize
  exact hc packets d out hd

omit [Hasher] in
theorem first_runs {p : Fin 32} {state : SlotState} (hfed : Fed (dataSet D) 0 root signature (dataPlaces {p}) state)
    (a e : ℕ) : state.Run a e ↔ a = 0 ∧ e = 0 ∧ p = 0 ∧ (D 0).dataComplete = true := by
  have hrec : ∀ i, i ∈ state.received.ones ↔ i = p := by
    intro i
    rw [hfed.received]
    simp [mem_dataPlaces]
  have hcl : ∀ i, i ∈ state.complete.ones ↔ i = p ∧ (D p).dataComplete = true := by
    intro i
    rw [hfed.complete]
    simp [mem_dataPlaces]
  constructor
  · intro hr
    have ha := (hrec a).mp (hr.present a le_rfl hr.le)
    have he := (hcl e).mp hr.closed
    have hzero : a = 0 := by
      rcases hr.starts with h0 | hprev
      · exact h0
      · have := ((hcl _).mp hprev).1
        omega
    have hp0 : p = 0 := Fin.ext (by simpa using ha.symm.trans hzero)
    exact ⟨hzero, by omega, hp0, hp0 ▸ he.2⟩
  · intro ⟨ha, he, hp, hdc⟩
    subst ha he hp
    refine ⟨le_rfl, fun i h1 h2 => (hrec i).mpr ?_, (hcl 0).mpr ⟨rfl, hdc⟩, fun i h1 h2 => by omega, .inl rfl⟩
    show i = 0
    omega

theorem Above.first (hC : ConsistentData config s root signature D) (hs : s + config.slotLookback < 2 ^ 64)
    (h : Above config s d) {packet : Bytes} (hp : Shred.parse packet = .ok (D p)) :
    ∃ state stats segments, d.pushRaw packet = .ok (d.settle s state stats segments, segments.map (rawBatch s)) ∧
      Fed (dataSet D) 0 root signature (dataPlaces {p}) state ∧
      (∀ a e, (a, e) ∈ segments.map Segment.shreds ↔ a = 0 ∧ e = 0 ∧ p = 0 ∧ (D 0).dataComplete = true) := by
  have hx := admitted_data hC h.config_eq hs h.highest.le hp
  have hfed : Fed (dataSet D) 0 root signature (dataPlaces ∅) (d.slotState s) := by
    rw [h.slotState]
    exact Fed.empty ..
  obtain ⟨state, stats, segments, hpush, hfed', hout⟩ := push_fed hC h.slots hfed (Finset.notMem_empty p) hx
  refine ⟨state, stats, segments, hpush, hfed', fun a e => ?_⟩
  have hold : ¬ (d.slotState s).Run a e := by
    rw [h.slotState]
    exact fun hr => absurd hr.closed (by simp [SlotState.empty])
  rw [hout, first_runs hfed']
  exact and_iff_left hold

/-- All 32 shreds get through when there was a place, or the first of them made one. -/
theorem covers_of_room (hC : ConsistentData config s root signature D) (h1 : 1 ≤ config.slotLookback)
    (h4 : 4 * config.slotLookback < 2 ^ 64) (hs : s + config.slotLookback < 2 ^ 64) (h : Above config s d)
    {sent : Fin 32 → Bytes} (hsent : ∀ p, Shred.parse (sent p) = .ok (D p)) {first : Fin 32} {rest : List (Fin 32)}
    (horder : (first :: rest).Perm (List.finRange 32))
    (hroom : d.slots.keys.card < 4 * config.slotLookback ∨ first = 0 ∧ (D 0).dataComplete = true) :
    ∃ d' out', d.pushAll ((first :: rest).map sent) = .ok (d', out') ∧ Covers s out' := by
  have hnd : (first :: rest).Nodup := horder.nodup_iff.mpr (List.nodup_finRange 32)
  obtain ⟨hfirst, hrest⟩ := List.nodup_cons.mp hnd
  obtain ⟨state, stats, segments, hpush, hfed, hout⟩ := h.first hC hs (hsent first)
  have hL := congrArg Config.slotLookback h.config_eq
  have hle : ∀ t ∈ d.slots.keys, t ≤ s := fun t ht => (h.held t ht).le
  have hplace : s ∈ (d.settle s state stats segments).slots.keys ∧
      (insert s (d.settle s state stats segments).slots.keys).card ≤ 4 * config.slotLookback := by
    rcases hroom with hroom | hdc
    · have hins : (insert s d.slots.keys).card ≤ 4 * config.slotLookback := by
        have := Finset.card_insert_le s d.slots.keys
        omega
      refine ⟨settle_roomy hL h4 hs hle hins, (Finset.card_le_card ?_).trans hins⟩
      intro t ht
      rcases Finset.mem_insert.mp ht with rfl | ht
      · exact Finset.mem_insert_self ..
      · exact settle_keys_subset ht
    · have hmem := (hout 0 0).mpr ⟨rfl, rfl, hdc⟩
      have hadv : d.advances s segments = true := by
        have hne : segments ≠ [] := by
          intro hnil
          rw [hnil] at hmem
          contradiction
        simp [advances, hne, h.highest]
      obtain ⟨hin, hcard⟩ := @settle_advanced _ s d state stats segments hL h1 h4 hs hle hadv
      exact ⟨hin, by rwa [Finset.insert_eq_of_mem hin]⟩
  have hfill : Filling config s root signature D {first} (d.settle s state stats segments)
      (segments.map (rawBatch s)) := by
    refine ⟨h.config_eq, h.slots.pushed (pushRaw_cases hpush), ?_, hplace.2, ?_, ?_, ?_⟩
    · intro t ht
      rcases Finset.mem_insert.mp (settle_keys_subset ht) with rfl | ht
      · exact le_rfl
      · exact hle t ht
    · exact settle_highest_le le_rfl h.highest.le
    · rw [settle_slotState hplace.1, if_pos rfl]
      exact hfed
    · intro a e hr
      rw [settle_slotState hplace.1, if_pos rfl, first_runs hfed] at hr
      obtain ⟨seg, hseg, heq⟩ := List.mem_map.mp ((hout a e).mpr hr)
      exact ⟨rawBatch s seg, List.mem_map.mpr ⟨seg, hseg, rfl⟩, rfl, heq⟩
  have hP : ∀ q ∈ rest, q ∉ ({first} : Finset (Fin 32)) := by
    intro q hq
    rw [Finset.mem_singleton]
    exact fun he => hfirst (he ▸ hq)
  obtain ⟨d', out', hrun, hF⟩ := hfill.pushAll hC h4 hs hsent hrest hP
  refine ⟨d', _, Steps.runAll_cons_ok.mpr ⟨_, _, out', hpush, hrun, rfl⟩, ?_⟩
  have hall : {first} ∪ rest.toFinset = (Finset.univ : Finset (Fin 32)) := by
    rw [← Finset.insert_eq, ← List.toFinset_cons, List.toFinset_eq_of_perm _ _ horder, List.toFinset_finRange]
  rw [hall] at hF
  exact hF.covers hC

/-- Without a place the first shred is lost, and with it the run it belongs to. -/
theorem not_covers_of_full (hC : ConsistentData config s root signature D) (h4 : 4 * config.slotLookback < 2 ^ 64)
    (hs : s + config.slotLookback < 2 ^ 64) (h : Above config s d)
    {sent : Fin 32 → Bytes} (hsent : ∀ p, Shred.parse (sent p) = .ok (D p)) {first : Fin 32} {rest : List (Fin 32)}
    (horder : (first :: rest).Perm (List.finRange 32)) (hfull : d.slots.keys.card = 4 * config.slotLookback)
    (hno : ¬ (first = 0 ∧ (D 0).dataComplete = true)) :
    ∃ d' out', d.pushAll ((first :: rest).map sent) = .ok (d', out') ∧ ¬ Covers s out' := by
  have hnd : (first :: rest).Nodup := horder.nodup_iff.mpr (List.nodup_finRange 32)
  obtain ⟨hfirst, hrest⟩ := List.nodup_cons.mp hnd
  obtain ⟨state, stats, segments, hpush, hfed, hout⟩ := h.first hC hs (hsent first)
  have hnil : segments = [] := by
    by_contra hne
    obtain ⟨seg, hseg⟩ := List.exists_mem_of_ne_nil _ hne
    exact hno ((hout _ _).mp (List.mem_map.mpr ⟨seg, hseg, rfl⟩)).2.2
  subst hnil
  have hgone : s ∉ (d.settle s state stats []).slots.keys :=
    settle_full (congrArg Config.slotLookback h.config_eq) h4 h.held hfull
  have hlose : Losing s root signature D ∅ (d.settle s state stats []) [] := by
    refine ⟨h.slots.pushed (pushRaw_cases hpush), ⟨∅, Finset.empty_subset _, ?_⟩, by simp⟩
    rw [slotState, (OrdMap.find_eq_none_iff ..).mpr hgone]
    exact Fed.empty ..
  obtain ⟨d', out', hrun, hF⟩ := hlose.pushAll hC hsent hrest (fun q _ => Finset.notMem_empty q)
  refine ⟨d', _, Steps.runAll_cons_ok.mpr ⟨_, _, out', hpush, hrun, rfl⟩, ?_⟩
  intro hcov
  obtain ⟨b, hb, hslot, h1, h2⟩ := hcov first first.isLt
  obtain ⟨r, hr, hi⟩ := hF.covered b hb hslot first h1 h2
  rw [Finset.empty_union, List.mem_toFinset] at hr
  exact hfirst (Fin.ext hi ▸ hr)

theorem lineSet_consistentData {slot : ℕ} (hs : slot < 2 ^ 64) (hv : config.shredVersion = none) :
    ∃ root signature, ConsistentData config slot root signature (lineSet slot hs).data := by
  have hC := lineSet_consistent hs
  obtain ⟨root, hroot⟩ := hC.sealed
  exact ⟨root, _, fun p => hC.position (.data p), fun p => hC.fecSetIndex (.data p), fun p => hC.slot (.data p),
    fun _ => .inl hv, fun p => hC.signature (.data p), fun p => (hroot (.data p)).merkleRoot, lineSet_dataComplete hs 31⟩

/-- When the 32 data shreds of a new highest slot get through. -/
theorem covers_iff (config : Config) (rs : ReedSolomon) (packets : List Bytes) (h1 : 1 ≤ config.slotLookback)
    (h4 : 4 * config.slotLookback < 2 ^ 64) (hd : (new config rs).pushAll packets = .ok (d, out)) (s : ℕ)
    (hhigh : d.highestSlot < s) (hheld : ∀ t ∈ d.slots.keys, t < s) (hs : s + config.slotLookback < 2 ^ 64)
    (hC : ConsistentData config s root signature D) (sent : Fin 32 → Bytes)
    (hsent : ∀ p, Shred.parse (sent p) = .ok (D p)) (order : List (Fin 32)) (horder : order.Perm (List.finRange 32)) :
    ∃ d' out', d.pushAll (order.map sent) = .ok (d', out') ∧
      (Covers s out' ↔ d.slots.keys.card < 4 * config.slotLookback ∨
        order.head? = some 0 ∧ (D 0).dataComplete = true) := by
  have h := Above.pushed h4 hd hhigh hheld
  have hsize := h.size
  cases order with
  | nil =>
    have hlen := horder.length_eq
    rw [List.length_finRange] at hlen
    contradiction
  | cons first rest =>
    simp only [List.head?_cons, Option.some.injEq]
    by_cases hroom : d.slots.keys.card < 4 * config.slotLookback ∨ first = 0 ∧ (D 0).dataComplete = true
    · obtain ⟨d', out', hrun, hcov⟩ := covers_of_room hC h1 h4 hs h hsent horder hroom
      exact ⟨d', out', hrun, fun _ => hroom, fun _ => hcov⟩
    · rw [not_or] at hroom
      obtain ⟨d', out', hrun, hno⟩ := not_covers_of_full hC h4 hs h hsent horder (by omega) hroom.2
      exact ⟨d', out', hrun, fun hcov => absurd hcov hno, fun hr => absurd hr (not_or.mpr hroom)⟩

omit [Hasher] in
/-- Slot 5 after one rejected datagram of slot 1. -/
theorem covers_iff_slot_5 :
    let S := @lineSet sha256Hasher 5 (by decide)
    ∃ d d' out',
      @pushAll sha256Hasher (new ⟨none, 64, true⟩ ReedSolomon.failing) ((List.range' 1 1).map garbage) = .ok (d, []) ∧
      @pushAll sha256Hasher d ((List.finRange 32).map fun p => (S.data p).bytes) = .ok (d', out') ∧
      (Covers 5 out' ↔ d.slots.keys.card < 4 * 64 ∨
        (List.finRange 32).head? = some 0 ∧ (S.data 0).dataComplete = true) := by
  intro S
  obtain ⟨d, hrun, hkeys, hhigh⟩ := @garbage_fills sha256Hasher ⟨none, 64, true⟩ 1 ReedSolomon.failing rfl (by decide)
    (by decide)
  obtain ⟨root, signature, hC⟩ := @lineSet_consistentData sha256Hasher ⟨none, 64, true⟩ 5 (by decide) rfl
  have hheld : ∀ t ∈ d.slots.keys, t < 5 := by
    intro t ht
    rw [hkeys, Finset.mem_Icc] at ht
    omega
  obtain ⟨d', out', hpush, hiff⟩ := @covers_iff sha256Hasher root signature S.data d [] ⟨none, 64, true⟩
    ReedSolomon.failing _ (by decide) (by decide) hrun 5 (by omega) hheld (by decide) hC
    (fun p => (S.data p).bytes) (fun p => Shred.parse_bytes _) (List.finRange 32) (List.Perm.refl _)
  exact ⟨d, d', out', hrun, hpush, hiff⟩

omit [Hasher] in
/-- Four rejected datagrams, and slot 5 never gets through with a lookback of 1. -/
theorem slot_5_wedged :
    let S := @lineSet sha256Hasher 5 (by decide)
    ∃ d root signature d' out',
      @pushAll sha256Hasher (new ⟨none, 1, true⟩ ReedSolomon.failing) ((List.range' 1 4).map garbage) = .ok (d, []) ∧
      d.highestSlot < 5 ∧ (∀ t ∈ d.slots.keys, t < 5) ∧
      @ConsistentData sha256Hasher ⟨none, 1, true⟩ 5 root signature S.data ∧
      @pushAll sha256Hasher d ((List.finRange 32).reverse.map fun p => (S.data p).bytes) = .ok (d', out') ∧
      ¬ Covers 5 out' := by
  intro S
  obtain ⟨d, hrun, hkeys, hhigh⟩ := @garbage_fills sha256Hasher ⟨none, 1, true⟩ 4 ReedSolomon.failing rfl (by decide)
    (by decide)
  obtain ⟨root, signature, hC⟩ := @lineSet_consistentData sha256Hasher ⟨none, 1, true⟩ 5 (by decide) rfl
  have hheld : ∀ t ∈ d.slots.keys, t < 5 := by
    intro t ht
    rw [hkeys, Finset.mem_Icc] at ht
    omega
  have habove := @Above.pushed sha256Hasher ⟨none, 1, true⟩ 5 d [] (by decide) _ _ hrun (by omega) hheld
  have hcard : d.slots.keys.card = 4 * 1 := by
    rw [hkeys]
    decide
  have horder : (List.finRange 32).reverse = 31 :: ((List.finRange 32).reverse.drop 1) := by decide
  have hperm : (31 :: (List.finRange 32).reverse.drop 1).Perm (List.finRange 32) := by
    rw [← horder]
    exact List.reverse_perm _
  obtain ⟨d', out', hpush, hno⟩ := @not_covers_of_full sha256Hasher ⟨none, 1, true⟩ 5 root signature S.data d hC
    (by decide) (by decide) habove (fun p => (S.data p).bytes) (fun p => Shred.parse_bytes _) 31 _ hperm hcard
    (fun h => absurd h.1 (by decide))
  rw [← horder] at hpush
  exact ⟨d, root, signature, d', out', hrun, by omega, hheld, hC, hpush, hno⟩

end Deshredder
end Deshred
