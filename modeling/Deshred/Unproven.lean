import Deshred.Advance
import Deshred.Alike
import Deshred.Traceless
import Deshred.Wedge

/-!
# Shreds whose proof leads nowhere

The slot, and the set, of a shred are created before its proof is looked at, and the
memory bound runs after it was rejected. What that changes depends on the slots held.
-/

namespace Deshred
open Runs

namespace SlotState
variable [Hasher] {state state' : SlotState} {x : Shred} {rs : Option ReedSolomon} {stats stats' : Stats}
  {out : List Segment}

/-- The shred gets to `FecSet::insert`, which returns `Rejected(BadProof)`. -/
structure Unproven (state : SlotState) (x : Shred) : Prop where
  unseen : ¬ (x.isData = true ∧ state.received.contains x.index = true)
  live : (if x.isData then .ok false else state.setIsConsumed x.fecSetIndex) = .ok false
  badProof : ((state.setAt x.fecSetIndex).insert x).2 = .rejected .badProof

/-- All that is left of the shred is its set, if it was not there. -/
theorem Unproven.insert (h : Unproven state x) (rs : Option ReedSolomon) (stats : Stats) :
    state.insert x rs stats = .ok (state.putSet x.fecSetIndex (state.setAt x.fecSetIndex),
      { stats with rejected := stats.rejected + 1 }, []) := by
  have hset : (state.sets x.fecSetIndex).getD FecSet.empty = state.setAt x.fecSetIndex := rfl
  have hins : (state.setAt x.fecSetIndex).insert x = (state.setAt x.fecSetIndex, .rejected .badProof) := by
    refine Prod.ext (FecSet.insert_unchanged ?_) h.badProof
    rw [h.badProof]
    exact fun he => by contradiction
  have hstore : state.storeInSet x rs stats = .ok (state.putSet x.fecSetIndex (state.setAt x.fecSetIndex),
      { stats with rejected := stats.rejected + 1 }, []) := by
    simp only [storeInSet, hset, hins]
  simp only [SlotState.insert, store, if_neg h.unseen, h.live, hstore, Steps.runAll_nil]

omit [Hasher] in
theorem alike_putSet (state : SlotState) (f : ℕ) : Alike state (state.putSet f (state.setAt f)) :=
  ⟨rfl, rfl, rfl, fun g _ => (putSet_setAt state f g).symm⟩

/-- Slots that go on the same way end a call in the same panic, or with the same segments. -/
theorem Alike.insert_follows {a b : SlotState} (h : Alike a b) (ha : SlotInv a) (hb : SlotInv b) (x : Shred)
    (rs : Option ReedSolomon) (stats stats₂ : Stats) :
    (∃ p, a.insert x rs stats = .error p ∧ b.insert x rs stats₂ = .error p) ∨
      ∃ a' b' s s₂ out, a.insert x rs stats = .ok (a', s, out) ∧ b.insert x rs stats₂ = .ok (b', s₂, out) ∧
        Alike a' b' := by
  by_cases hx : x.kind = .code → x.fecSetIndex ≤ 32736
  · obtain ⟨⟨a', s, out⟩, hok⟩ := (insert_ok_iff ha x rs stats).mpr hx
    obtain ⟨b', s₂, hokb, h'⟩ := h.insert ha hb hok stats₂
    exact .inr ⟨a', b', s, s₂, out, hok, hokb, h'⟩
  · obtain ⟨hk, hlarge⟩ := Classical.not_imp.mp hx
    have hpanic := fun (state : SlotState) stats => @insert_panics _ state x hk (Nat.lt_of_not_le hlarge) rs stats
    exact .inl ⟨_, hpanic a stats, hpanic b stats₂⟩

end SlotState

namespace Deshredder
variable [Hasher] {d d' d₂ : Deshredder} {packet : Bytes} {out : List RawBatch} {slot : ℕ} {state state₂ : SlotState}

/-! ### Going on the same way -/

/- The same slots are held, and each goes on the same way. -/
structure Alike (d d₂ : Deshredder) : Prop where
  config : d₂.config = d.config
  highestSlot : d₂.highestSlot = d.highestSlot
  rs : d₂.rs = d.rs
  keys : d₂.slots.keys = d.slots.keys
  states : ∀ t, (d.slotState t).Alike (d₂.slotState t)
  inv : SlotsInv d
  inv₂ : SlotsInv d₂

omit [Hasher] in
/-- Which slots are left after a push is decided by which were held. -/
theorem settle_keys_congr (hc : d₂.config = d.config) (hh : d₂.highestSlot = d.highestSlot)
    (hk : d₂.slots.keys = d.slots.keys) (stats stats₂ : Stats) (segments : List Segment) :
    (d₂.settle slot state₂ stats₂ segments).slots.keys = (d.settle slot state stats segments).slots.keys := by
  have hins : (d₂.slots.insert slot state₂).keys = (d.slots.insert slot state).keys := by
    rw [OrdMap.insert_keys, OrdMap.insert_keys, hk]
  have hadv : d₂.advances slot segments = d.advances slot segments := by
    simp only [advances, hh]
  have hkept : (d₂.kept slot state₂ segments).keys = (d.kept slot state segments).keys := by
    unfold kept
    rw [hadv]
    split
    · ext t
      simp only [prune, OrdMap.popFirstWhile_keys, hins, hc]
    · exact hins
  ext t
  rw [settle_keys, settle_keys, hkept, hc]

omit [Hasher] in
theorem Alike.settle (h : Alike d d₂) (hs : state.Alike state₂) (hI : state.SlotInv) (hI₂ : state₂.SlotInv)
    (stats stats₂ : Stats) (segments : List Segment) :
    Alike (d.settle slot state stats segments) (d₂.settle slot state₂ stats₂ segments) := by
  have hkeys := @settle_keys_congr d d₂ slot state state₂ h.config h.highestSlot h.keys stats stats₂ segments
  refine ⟨h.config, ?_, h.rs, hkeys, fun t => ?_, h.inv.settle hI, h.inv₂.settle hI₂⟩
  · have hadv : d₂.advances slot segments = d.advances slot segments := by
      simp only [advances, h.highestSlot]
    rw [settle_highestSlot, settle_highestSlot, hadv, h.highestSlot]
  · by_cases ht : t ∈ (d.settle slot state stats segments).slots.keys
    · rw [settle_slotState ht, settle_slotState (hkeys ▸ ht)]
      split
      · exact hs
      · exact h.states t
    · rw [slotState_of_not_held ht, slotState_of_not_held (hkeys ▸ ht)]
      exact SlotState.Alike.refl _

theorem Alike.pushRaw (h : Alike d d₂) (packet : Bytes) :
    Steps.Follows Alike (d.pushRaw packet) (d₂.pushRaw packet) := by
  have hwith : ∀ stats stats₂ : Stats, Alike { d with stats := stats } { d₂ with stats := stats₂ } :=
    fun _ _ => ⟨h.config, h.highestSlot, h.rs, h.keys, h.states, h.inv, h.inv₂⟩
  unfold Deshredder.pushRaw
  dsimp only
  cases hp : Shred.parse packet with
  | error e => exact ⟨_, rfl, hwith _ _⟩
  | ok x =>
    have hv : d₂.wrongVersion x = d.wrongVersion x := by simp only [wrongVersion, h.config]
    have hst : d₂.isStale x = d.isStale x := by simp only [isStale, h.config, h.highestSlot]
    have hrec : d₂.recoverWith = d.recoverWith := by simp only [recoverWith, h.config, h.rs]
    dsimp only
    rw [hv, hst, hrec]
    split
    · exact ⟨_, rfl, hwith _ _⟩
    · split
      · exact ⟨_, rfl, hwith _ _⟩
      · have hI := h.inv.slotState x.slot
        have hI₂ := h.inv₂.slotState x.slot
        obtain ⟨p, ha, hb⟩ | ⟨a', b', s, s₂, segments, ha, hb, halike⟩ := (h.states x.slot).insert_follows hI hI₂ x
          d.recoverWith { d.stats with packets := d.stats.packets + 1 } { d₂.stats with packets := d₂.stats.packets + 1 }
        · rw [ha, hb]
          rfl
        · have hx := SlotState.fecSetIndex_of_insert ha
          rw [ha, hb]
          exact ⟨_, rfl, h.settle halike (SlotState.insert_spec hI hx ha).1 (SlotState.insert_spec hI₂ hx hb).1 _ _ _⟩

/-- The batches a sequence of datagrams brings out, or the panic it ends in. -/
def emitted (d : Deshredder) (packets : List Bytes) : Except Panic (List RawBatch) :=
  (d.pushAll packets).map Prod.snd

theorem Alike.emitted (h : Alike d d₂) (packets : List Bytes) : d₂.emitted packets = d.emitted packets :=
  (Steps.runAll_follows (fun _ _ i hR => hR.pushRaw i) h packets).outputs

/-! ### What a bad proof changes -/

/-- `FecSet::insert` returns `Rejected(BadProof)` for the shred of the datagram. -/
structure RejectsProof (d : Deshredder) (packet : Bytes) (x : Shred) : Prop where
  admitted : Admitted d packet x
  unproven : (d.slotState x.slot).Unproven x

/- The bits and the shreds of a slot are what they were. -/
structure SameHeld (state state' : SlotState) : Prop where
  received : state'.received = state.received
  complete : state'.complete = state.complete
  consumed : state'.consumed = state.consumed
  shreds : ∀ f q, (state'.setAt f).held q = (state.setAt f).held q

/-- A datagram that made no difference to the slots held and to what comes out later. -/
structure NoDifference (d d' : Deshredder) : Prop where
  keys : d'.slots.keys = d.slots.keys
  states : ∀ t state, d.slots.find t = some state → ∃ state', d'.slots.find t = some state' ∧ SameHeld state state'
  batches : ∀ packets, d'.emitted packets = d.emitted packets

theorem RejectsProof.pushRaw {x : Shred} (h : RejectsProof d packet x) :
    ∃ stats, d.pushRaw packet = .ok (d.settle x.slot
      ((d.slotState x.slot).putSet x.fecSetIndex ((d.slotState x.slot).setAt x.fecSetIndex)) stats [], []) := by
  rw [pushRaw_admitted h.admitted, h.unproven.insert]
  exact ⟨_, rfl⟩

theorem RejectsProof.slotInv {x : Shred} (h : RejectsProof d packet x) (hI : SlotsInv d) :
    ((d.slotState x.slot).putSet x.fecSetIndex ((d.slotState x.slot).setAt x.fecSetIndex)).SlotInv := by
  have hok := h.unproven.insert none d.stats
  exact (SlotState.insert_spec (hI.slotState x.slot) (SlotState.fecSetIndex_of_insert hok) hok).1

omit [Hasher] in
theorem settle_nil_keys_eq {n : ℕ} (hn : wrappingMul 4 d.config.slotLookback = n) (hsize : d.slots.size ≤ n)
    (stats : Stats) : (d.settle slot state stats []).slots.keys = d.slots.keys ↔
      slot ∈ d.slots.keys ∨ d.slots.size = n ∧ ∀ t ∈ d.slots.keys, t < slot := by
  have hself := @mem_settle_nil slot d state stats n hn hsize
  constructor
  · intro hkeys
    by_contra hno
    rw [not_or] at hno
    rw [hkeys] at hself
    exact hno.1 (hself.mpr fun h => hno.2 h.2)
  · intro hcond
    ext t
    by_cases hheld : slot ∈ d.slots.keys
    · rw [settle_nil_keys, hn, Finset.insert_eq_of_mem hheld]
      exact and_iff_left ((Finset.card_filter_le ..).trans hsize)
    · have hlast := hcond.resolve_left hheld
      by_cases ht : t = slot
      · rw [ht, hself]
        exact iff_of_false (not_not_intro ⟨hheld, hlast⟩) hheld
      · rw [settle_nil_keys, hn, Finset.mem_insert, or_iff_right ht]
        apply and_iff_left_of_imp
        intro hmem
        -- the new slot comes after `t`
        have hlt := hlast.2 t hmem
        rw [Finset.filter_insert, if_neg (by omega)]
        exact (Finset.card_filter_le ..).trans hsize

theorem RejectsProof.alike {x : Shred} (h : RejectsProof d packet x) (hI : SlotsInv d) {stats : Stats}
    (hd' : d' = d.settle x.slot
      ((d.slotState x.slot).putSet x.fecSetIndex ((d.slotState x.slot).setAt x.fecSetIndex)) stats [])
    (hkeys : d'.slots.keys = d.slots.keys) : Alike d d' := by
  subst hd'
  refine ⟨rfl, settle_nil_highestSlot, rfl, hkeys, fun t => ?_, hI, hI.settle (h.slotInv hI)⟩
  by_cases ht : t ∈ d.slots.keys
  · rw [settle_slotState (hkeys ▸ ht)]
    split
    · rename_i heq
      rw [heq]
      exact SlotState.alike_putSet _ _
    · exact SlotState.Alike.refl _
  · rw [slotState_of_not_held ht, slotState_of_not_held (hkeys ▸ ht)]
    exact SlotState.Alike.refl _

theorem RejectsProof.noDifference {x : Shred} (h : RejectsProof d packet x) (hI : SlotsInv d) {stats : Stats}
    (hd' : d' = d.settle x.slot
      ((d.slotState x.slot).putSet x.fecSetIndex ((d.slotState x.slot).setAt x.fecSetIndex)) stats [])
    (hkeys : d'.slots.keys = d.slots.keys) : NoDifference d d' := by
  refine ⟨hkeys, fun t state ht => ?_, (h.alike hI hd' hkeys).emitted⟩
  have hmem : t ∈ d'.slots.keys := by
    rw [hkeys, OrdMap.mem_keys, ht]
    rfl
  subst hd'
  have hfind := settle_held hmem
  by_cases heq : t = x.slot
  · have hstate : d.slotState x.slot = state := by rw [slotState, ← heq, ht, Option.getD_some]
    rw [heq, OrdMap.insert_find_self] at hfind
    rw [heq, ← hstate]
    exact ⟨_, hfind, rfl, rfl, rfl, fun f q => by rw [SlotState.putSet_setAt]⟩
  · rw [OrdMap.insert_find_ne _ _ heq, ht] at hfind
    exact ⟨state, hfind, rfl, rfl, rfl, fun _ _ => rfl⟩

/-- When a shred that was rejected for a bad proof makes no difference: its slot was
there already, or found all places taken and comes after all the slots held. -/
theorem bad_proof_iff (config : Config) (rs : ReedSolomon) (h4 : 4 * config.slotLookback < 2 ^ 64)
    (hd : Reachable (new config rs) d) {x : Shred} (hx : RejectsProof d packet x) :
    ∃ d', d.pushRaw packet = .ok (d', []) ∧ (NoDifference d d' ↔ x.slot ∈ d.slots.keys ∨
      d.slots.size = 4 * config.slotLookback ∧ ∀ t ∈ d.slots.keys, t < x.slot) := by
  have hI : Settled d := hd.invariant (Settled.new config rs) fun d packet d' out hI hok =>
    hI.pushed (pushRaw_cases hok)
  have hc : d.config = config := by
    obtain ⟨packets, out, hrun⟩ := hd
    exact pushAll_config hrun
  have hn : wrappingMul 4 d.config.slotLookback = 4 * config.slotLookback := by rw [hc, wrappingMul_of_lt h4]
  obtain ⟨stats, hpush⟩ := hx.pushRaw
  refine ⟨_, hpush, ?_⟩
  rw [← settle_nil_keys_eq hn (hI.size.trans hn.le) stats]
  exact ⟨NoDifference.keys, hx.noDifference hI.slots rfl⟩

/-! ### A slot evicted by a rejected shred -/

/- In a slot that is new nothing is asked before the proof. -/
theorem garbage_unproven {slot : ℕ} (hs : slot < 2 ^ 64) (hv : d.config.shredVersion = none)
    (hfresh : d.highestSlot ≤ wrappingAdd slot d.config.slotLookback) (hnew : slot ∉ d.slots.keys) :
    ∃ x, x.slot = slot ∧ RejectsProof d (garbage slot) x := by
  obtain ⟨x, hx, hslot, hset, hroot⟩ := parse_garbage hs
  have hkind : x.kind = .data := by
    have hblank := DataPacket.parse_packet _ (DataPacket.blank_valid hs (show 1 < 32768 by decide) (.inl rfl))
    rw [Except.ok.inj (hx.symm.trans hblank)]
    rfl
  have hempty : d.slotState x.slot = SlotState.empty := slotState_of_not_held (hslot ▸ hnew)
  have hadm : Admitted d (garbage slot) x :=
    ⟨hx, by simp [wrongVersion, hv], by simp only [isStale, hslot, decide_eq_false_iff_not]; omega⟩
  refine ⟨x, hslot, hadm, ?_⟩
  rw [hempty]
  have hbad : (FecSet.empty.insert x).2 = .rejected .badProof := by
    have hget : FecSet.empty.get x = none := by
      rw [FecSet.get_eq]
      cases x.position <;> rfl
    have hcomp : FecSet.empty.isComplete = false := rfl
    simp only [FecSet.insert, hcomp, hget, hroot, Bool.false_eq_true, and_false, ↓reduceIte, Option.isSome_none]
  refine ⟨?_, ?_, hbad⟩
  · intro h
    exact absurd ((FixedBits.contains_iff _ _).mp h.2) (by simp [SlotState.empty])
  · rw [if_pos (x.isData_iff.mpr hkind)]

omit [Hasher] in
/-- The first datagram of all creates a slot. -/
theorem bad_proof_iff_first : ∃ x d',
    @RejectsProof sha256Hasher (new ⟨none, 64, true⟩ ReedSolomon.failing) (garbage 5) x ∧
      @pushRaw sha256Hasher (new ⟨none, 64, true⟩ ReedSolomon.failing) (garbage 5) = .ok (d', []) ∧
      (@NoDifference sha256Hasher (new ⟨none, 64, true⟩ ReedSolomon.failing) d' ↔
        x.slot ∈ (new ⟨none, 64, true⟩ ReedSolomon.failing).slots.keys ∨
          (new ⟨none, 64, true⟩ ReedSolomon.failing).slots.size = 4 * 64 ∧
            ∀ t ∈ (new ⟨none, 64, true⟩ ReedSolomon.failing).slots.keys, t < x.slot) := by
  obtain ⟨x, _, hx⟩ := @garbage_unproven sha256Hasher (new ⟨none, 64, true⟩ ReedSolomon.failing) 5 (by decide) rfl
    (Nat.zero_le _) (by simp [new])
  obtain ⟨d', hpush, hiff⟩ := @bad_proof_iff sha256Hasher _ _ ⟨none, 64, true⟩ ReedSolomon.failing (by decide)
    ⟨[], [], rfl⟩ x hx
  exact ⟨x, d', hx, hpush, hiff⟩

variable {config : Config} {s : ℕ} {root : Hash32} {signature : Signature} {D : Fin 32 → Shred}

/-- The second data shred arrived and the slot was kept: the first one closes two runs. -/
theorem emits_second (hC : ConsistentData config s root signature D) (hI : SlotsInv d)
    (hfed : Fed (dataSet D) 0 root signature (dataPlaces {1}) (d.slotState s))
    (hdc : ∀ p, (D p).dataComplete = true) (hx : Admitted d packet (D 0)) :
    ∃ out, d.emitted [packet] = .ok out ∧ ∃ b ∈ out, b.shreds = (1, 1) := by
  obtain ⟨state, stats, segments, hpush, hfed', hout⟩ := push_fed hC hI hfed (show (0 : Fin 32) ∉ {1} by decide) hx
  have hrec : ∀ i < 2, i ∈ state.received.ones ∧ i ∈ state.complete.ones := by
    intro i hi
    have hmem : Position.data ⟨i, by omega⟩ ∈ dataPlaces (insert 0 {1}) := by
      rw [mem_dataPlaces, Finset.mem_insert, Finset.mem_singleton, Fin.ext_iff, Fin.ext_iff]
      show i = 0 ∨ i = 1
      omega
    exact ⟨(hfed'.received i).mpr ⟨_, hmem, by simp⟩, (hfed'.complete i).mpr ⟨_, hmem, by simp, hdc _⟩⟩
  have hrun : state.Run 1 1 := by
    refine ⟨le_rfl, fun i h1 h2 => ?_, (hrec 1 (by omega)).2, fun i h1 h2 => ?_, .inr (hrec 0 (by omega)).2⟩
    · exact (hrec i (by omega)).1
    · omega
  have hold : ¬ (d.slotState s).Run 1 1 := by
    rw [first_runs hfed]
    intro h
    exact absurd h.1 (by decide)
  obtain ⟨seg, hseg, heq⟩ := List.mem_map.mp ((hout 1 1).mpr ⟨hrun, hold⟩)
  refine ⟨segments.map (rawBatch s), ?_, _, List.mem_map.mpr ⟨seg, hseg, rfl⟩, heq⟩
  rw [emitted, pushAll, Steps.runAll_singleton_ok.mpr hpush]
  rfl

/-- The slot was not kept: the first data shred closes one. -/
theorem emits_first (hC : ConsistentData config s root signature D) (hI : SlotsInv d)
    (hnew : s ∉ d.slots.keys) (hx : Admitted d packet (D 0)) :
    ∃ out, d.emitted [packet] = .ok out ∧ ∀ b ∈ out, b.shreds = (0, 0) := by
  have hfed : Fed (dataSet D) 0 root signature (dataPlaces ∅) (d.slotState s) := by
    rw [slotState_of_not_held hnew]
    exact Fed.empty ..
  obtain ⟨state, stats, segments, hpush, hfed', hout⟩ := push_fed hC hI hfed (Finset.notMem_empty 0) hx
  refine ⟨segments.map (rawBatch s), ?_, fun b hb => ?_⟩
  · rw [emitted, pushAll, Steps.runAll_singleton_ok.mpr hpush]
    rfl
  · obtain ⟨seg, hseg, rfl⟩ := List.mem_map.mp hb
    have hrun := ((hout _ _).mp (List.mem_map.mpr ⟨seg, hseg, rfl⟩)).1
    obtain ⟨ha, he, _⟩ := (first_runs hfed' _ _).mp hrun
    exact Prod.ext ha he

/- Three rejected datagrams, then the second data shred of slot 10. -/
theorem slot_10_held : let S := lineSet 10 (by decide)
    ∃ d root signature, (new ⟨none, 1, false⟩ ReedSolomon.failing).pushAll
        ((List.range' 1 3).map garbage ++ [(S.data 1).bytes]) = .ok (d, []) ∧
      d.slots.keys = {1, 2, 3, 10} ∧ d.highestSlot = 0 ∧ ConsistentData ⟨none, 1, false⟩ 10 root signature S.data ∧
      Fed (dataSet S.data) 0 root signature (dataPlaces {1}) (d.slotState 10) := by
  intro S
  obtain ⟨d, hrun, hkeys, hhigh⟩ := @garbage_fills _ ⟨none, 1, false⟩ 3 ReedSolomon.failing rfl (by decide) (by decide)
  obtain ⟨root, signature, hC⟩ := @lineSet_consistentData _ ⟨none, 1, false⟩ 10 (by decide) rfl
  have hc := pushAll_config hrun
  have hheld : ∀ t ∈ d.slots.keys, t < 10 := by
    intro t ht
    rw [hkeys, Finset.mem_Icc] at ht
    omega
  have habove := @Above.pushed _ _ 10 d [] (by decide) _ _ hrun (by omega) hheld
  obtain ⟨state, stats, segments, hpush, hfed, hout⟩ := habove.first hC (by decide) (Shred.parse_bytes (S.data 1))
  -- not shred 0, so no run
  have hnil : segments = [] := by
    by_contra hne
    obtain ⟨seg, hseg⟩ := List.exists_mem_of_ne_nil _ hne
    exact absurd ((hout _ _).mp (List.mem_map.mpr ⟨seg, hseg, rfl⟩)).2.2.1 (by decide)
  subst hnil
  have hins : insert 10 d.slots.keys = {1, 2, 3, 10} := by
    rw [hkeys]
    decide
  have hcard : (insert 10 d.slots.keys).card ≤ 4 * 1 := by
    rw [hins]
    decide
  obtain ⟨hk, hh⟩ := @settle_idle d 1 10 state stats (by rw [hc]) (by decide) hcard
  have hmem : 10 ∈ (d.settle 10 state stats []).slots.keys := by
    rw [hk]
    exact Finset.mem_insert_self ..
  refine ⟨_, root, signature, Steps.runAll_snoc_ok.mpr ⟨d, [], [], hrun, hpush, rfl⟩, hk.trans hins, hh.trans hhigh,
    hC, ?_⟩
  rw [settle_slotState hmem, if_pos rfl]
  exact hfed

omit [Hasher] in
/- Slot 10 is the fifth of them. -/
theorem settle_evicts_10 (hc : d.config.slotLookback = 1) (hk : d.slots.keys = {1, 2, 3, 10}) (stats : Stats) :
    (d.settle 5 state stats []).slots.keys = {1, 2, 3, 5} := by
  ext t
  rw [settle_nil_keys, hc, hk]
  constructor
  · intro ⟨ht, hle⟩
    simp only [Finset.mem_insert, Finset.mem_singleton] at ht
    rcases ht with rfl | rfl | rfl | rfl | rfl
    all_goals revert hle; decide
  · intro ht
    simp only [Finset.mem_insert, Finset.mem_singleton] at ht
    rcases ht with rfl | rfl | rfl | rfl
    all_goals decide

omit [Hasher] in
/-- Slots 1, 2, 3 and 10 are held when a rejected shred of slot 5 arrives: slot 10 is
dropped with its shred, and the run of that shred is never handed out. -/
theorem rejected_shred_evicts :
    let S := @lineSet sha256Hasher 10 (by decide)
    let packets := (List.range' 1 3).map garbage ++ [(S.data 1).bytes]
    ∃ d d' x, @pushAll sha256Hasher (new ⟨none, 1, false⟩ ReedSolomon.failing) packets = .ok (d, []) ∧
      @RejectsProof sha256Hasher d (garbage 5) x ∧ @pushRaw sha256Hasher d (garbage 5) = .ok (d', []) ∧
      d.slots.keys = {1, 2, 3, 10} ∧ d'.slots.keys = {1, 2, 3, 5} ∧
      @emitted sha256Hasher d' [(S.data 0).bytes] ≠ @emitted sha256Hasher d [(S.data 0).bytes] ∧
      ¬ @NoDifference sha256Hasher d d' := by
  intro S packets
  let _ := sha256Hasher
  obtain ⟨d, root, signature, hrun, hk, hhigh, hC, hfed⟩ := slot_10_held
  have hc := pushAll_config hrun
  have hI := slotsInv_of_pushAll hrun
  obtain ⟨x, hslot, hx⟩ := @garbage_unproven _ d 5 (by decide) (by rw [hc]) (by omega) (by rw [hk]; decide)
  obtain ⟨stats, hpush⟩ := hx.pushRaw
  rw [hslot] at hpush
  generalize (d.slotState 5).putSet x.fecSetIndex ((d.slotState 5).setAt x.fecSetIndex) = state at hpush
  have hk' := @settle_evicts_10 d state (by rw [hc]) hk stats
  have hhigh' : (d.settle 5 state stats []).highestSlot = d.highestSlot := settle_nil_highestSlot
  -- what the first data shred of slot 10 brings out of each
  have hparse : Shred.parse (S.data 0).bytes = .ok (S.data 0) := Shred.parse_bytes _
  have hadm := admitted_data hC hc (by decide) (by omega) hparse
  obtain ⟨out, hout, b, hb, hsecond⟩ := emits_second hC hI hfed (lineSet_dataComplete (by decide)) hadm
  have hadm' := @admitted_data _ _ _ _ _ _ _ (d.settle 5 state stats []) _ hC hc (by decide) (by omega) hparse
  obtain ⟨out', hout', hfirst⟩ := emits_first hC (hI.pushed (pushRaw_cases hpush)) (by rw [hk']; decide) hadm'
  have hne : (d.settle 5 state stats []).emitted [(S.data 0).bytes] ≠ d.emitted [(S.data 0).bytes] := by
    intro he
    rw [hout, hout', Except.ok.injEq] at he
    have hsame := hfirst b (he ▸ hb)
    rw [hsecond] at hsame
    exact absurd hsame (by decide)
  exact ⟨d, _, x, hrun, hx, hpush, hk, hk', hne, fun h => hne (h.batches _)⟩

end Deshredder
end Deshred
