import Deshred.Emission
import Deshred.Wedge

/-!
# The smallest lookbacks

From a lookback of 1 on, a Deshredder that only sees the newest slot holds it until all of
it was handed out. With a lookback of 0 the memory bound leaves no place at all: a slot
is gone when the push that stored its shred returns.
-/

namespace Deshred

theorem countP_le_one {α : Type} {p : α → Bool} {as : List α}
    (h : as.Pairwise fun a b => ¬ (p a = true ∧ p b = true)) : as.countP p ≤ 1 := by
  induction as with
  | nil => exact Nat.zero_le 1
  | cons a as ih =>
    obtain ⟨hfirst, hrest⟩ := List.pairwise_cons.mp h
    rw [List.countP_cons]
    split
    · rename_i ha
      have hnone : as.countP p = 0 := List.countP_eq_zero.mpr fun b hb hpb => hfirst b hb ⟨ha, hpb⟩
      rw [hnone]
    · exact ih hrest

namespace Deshredder

/-- Of the batches of slot `s` among `out`, just one covers each of the shreds 0 to 31. -/
def CoversOnce (s : ℕ) (out : List RawBatch) : Prop :=
  ∀ i < 32, out.countP (fun b => b.slot = s ∧ b.shreds.1 ≤ i ∧ i ≤ b.shreds.2) = 1

theorem coversOnce_of_disjoint {s : ℕ} {out : List RawBatch} (hcovers : Covers s out) (hdisjoint : DisjointBatches out) :
    CoversOnce s out := by
  intro i hi
  obtain ⟨b, hb, hslot, h1, h2⟩ := hcovers i hi
  have hsome : 0 < out.countP (fun b => b.slot = s ∧ b.shreds.1 ≤ i ∧ i ≤ b.shreds.2) :=
    List.countP_pos_iff.mpr ⟨b, hb, by simp [hslot, h1, h2]⟩
  have hone : out.countP (fun b => b.slot = s ∧ b.shreds.1 ≤ i ∧ i ≤ b.shreds.2) ≤ 1 := by
    apply countP_le_one
    apply hdisjoint.imp
    intro a b hd hab
    simp only [decide_eq_true_eq] at hab
    obtain ⟨⟨ha, ha1, ha2⟩, hb, hb1, hb2⟩ := hab
    have hnot := Finset.disjoint_left.mp (hd (ha.trans hb.symm)) (Finset.mem_Icc.mpr ⟨ha1, ha2⟩)
    exact hnot (Finset.mem_Icc.mpr ⟨hb1, hb2⟩)
  omega

theorem CoversOnce.covers {s : ℕ} {out : List RawBatch} (h : CoversOnce s out) : Covers s out := by
  intro i hi
  have hsome : 0 < out.countP (fun b => b.slot = s ∧ b.shreds.1 ≤ i ∧ i ≤ b.shreds.2) := by
    rw [h i hi]
    exact Nat.one_pos
  obtain ⟨b, hb, hcov⟩ := List.countP_pos_iff.mp hsome
  exact ⟨b, hb, by simpa using hcov⟩

variable [Hasher] {config : Config} {s : ℕ} {root : Hash32} {signature : Signature} {D : Fin 32 → Shred}
  {p : Fin 32} {d : Deshredder} {out : List RawBatch} {packet : Bytes} {sent : Fin 32 → Bytes} {order : List (Fin 32)}

/-! ### A lookback of 1 or more -/

omit [Hasher] in
theorem Filling.new (config : Config) (rs : ReedSolomon) (s : ℕ) (root : Hash32) (signature : Signature)
    (D : Fin 32 → Shred) (h1 : 1 ≤ config.slotLookback) :
    Filling config s root signature D ∅ (Deshredder.new config rs) [] where
  config_eq := rfl
  slots := SlotsInv.new config rs
  below t ht := by contradiction
  room := by
    have hone : (insert s (Deshredder.new config rs).slots.keys).card = 1 := rfl
    omega
  highest := Nat.zero_le s
  fed := Fed.empty ..
  emitted a e hr := absurd hr.closed (by simp [slotState, Deshredder.new, SlotState.empty])

theorem covers_once_of_room (rs : ReedSolomon) (h1 : 1 ≤ config.slotLookback) (h4 : 4 * config.slotLookback < 2 ^ 64)
    (hs : s + config.slotLookback < 2 ^ 64) (hC : ConsistentData config s root signature D)
    (hsent : ∀ p, Shred.parse (sent p) = .ok (D p)) (horder : order.Perm (List.finRange 32)) :
    ∃ d out, (new config rs).pushAll (order.map sent) = .ok (d, out) ∧ CoversOnce s out := by
  have hnd : order.Nodup := horder.nodup_iff.mpr (List.nodup_finRange 32)
  obtain ⟨d, out, hrun, hF⟩ := (Filling.new config rs s root signature D h1).pushAll hC h4 hs hsent hnd
    (fun p _ => Finset.notMem_empty p)
  rw [Finset.empty_union, List.toFinset_eq_of_perm _ _ horder, List.toFinset_finRange] at hF
  have hrange : ∀ b ∈ order.map sent, InRange config.slotLookback b := by
    intro b hb x hx
    obtain ⟨p, _, rfl⟩ := List.mem_map.mp hb
    rw [← Except.ok.inj ((hsent p).symm.trans hx), hC.slot p]
    exact hs
  have hE := pushAll_emission h1 h4 hrange hrun
  exact ⟨d, out, hrun, coversOnce_of_disjoint (hF.covers hC) hE.disjoint⟩

/-! ### A lookback of 0 -/

/- Nothing is held between pushes, so a run has one shred, and that is shred 0. -/
structure Emptied (config : Config) (s : ℕ) (d : Deshredder) (out : List RawBatch) : Prop where
  config_eq : d.config = config
  keys : d.slots.keys = ∅
  highest : d.highestSlot ≤ s
  first : ∀ b ∈ out, b.shreds = (0, 0)

omit [Hasher] in
theorem Emptied.slotState (h : Emptied config s d out) (t : ℕ) : d.slotState t = SlotState.empty := by
  have hnone : d.slots.find t = none := by
    rw [OrdMap.find_eq_none_iff, h.keys]
    exact Finset.notMem_empty t
  rw [Deshredder.slotState, hnone, Option.getD_none]

omit [Hasher] in
theorem settle_keys_of_zero {slot : ℕ} {state : SlotState} {stats : Stats} {segments : List Segment}
    (h0 : d.config.slotLookback = 0) : (d.settle slot state stats segments).slots.keys = ∅ := by
  rw [Finset.eq_empty_iff_forall_notMem]
  intro t ht
  obtain ⟨hkept, hle⟩ := settle_keys.mp ht
  -- the slots up to `t` are at least `t` itself, and the bound is 0
  have hpos : 0 < ((d.kept slot state segments).keys.filter (· ≤ t)).card :=
    Finset.card_pos.mpr ⟨t, Finset.mem_filter.mpr ⟨hkept, le_rfl⟩⟩
  rw [h0, wrappingMul_of_lt (by decide)] at hle
  omega

theorem Emptied.pushed (hC : ConsistentData config s root signature D) (h0 : config.slotLookback = 0)
    (hs : s + config.slotLookback < 2 ^ 64) (h : Emptied config s d out) (hparse : Shred.parse packet = .ok (D p)) :
    ∃ d' out', d.pushRaw packet = .ok (d', out') ∧ Emptied config s d' (out ++ out') := by
  have hx := admitted_data hC h.config_eq hs h.highest hparse
  have hslots : SlotsInv d := by
    intro t state hfind
    have hmem : t ∈ d.slots.keys := (OrdMap.mem_keys ..).mpr (by rw [hfind]; rfl)
    rw [h.keys] at hmem
    contradiction
  have hfed : Fed (dataSet D) 0 root signature (dataPlaces ∅) (d.slotState s) := by
    rw [h.slotState]
    exact Fed.empty ..
  obtain ⟨state, stats, segments, hpush, hfed', hout⟩ := push_fed hC hslots hfed (Finset.notMem_empty p) hx
  refine ⟨_, _, hpush, h.config_eq, ?_, settle_highest_le le_rfl h.highest, ?_⟩
  · apply settle_keys_of_zero
    rw [h.config_eq, h0]
  · intro b hb
    rcases List.mem_append.mp hb with hb | hb
    · exact h.first b hb
    · obtain ⟨seg, hseg, rfl⟩ := List.mem_map.mp hb
      obtain ⟨hrun, _⟩ := (hout seg.shreds.1 seg.shreds.2).mp (List.mem_map.mpr ⟨seg, hseg, rfl⟩)
      obtain ⟨ha, he, _⟩ := (first_runs hfed' _ _).mp hrun
      exact Prod.ext ha he

theorem Emptied.pushAll (hC : ConsistentData config s root signature D) (h0 : config.slotLookback = 0)
    (hs : s + config.slotLookback < 2 ^ 64) (hsent : ∀ p, Shred.parse (sent p) = .ok (D p)) (hnd : order.Nodup)
    (h : Emptied config s d out) : ∃ d' out', d.pushAll (order.map sent) = .ok (d', out') ∧
      Emptied config s d' (out ++ out') :=
  Steps.runAll_distinct (R := fun (_ : Finset (Fin 32)) d out => Emptied config s d out)
    (fun _ _ _ p _ h => h.pushed hC h0 hs (hsent p)) hnd (fun p _ => Finset.notMem_empty p) h

theorem not_covers_of_zero (rs : ReedSolomon) (h0 : config.slotLookback = 0) (hs : s + config.slotLookback < 2 ^ 64)
    (hC : ConsistentData config s root signature D) (hsent : ∀ p, Shred.parse (sent p) = .ok (D p))
    (horder : order.Perm (List.finRange 32)) :
    ∃ d out, (new config rs).pushAll (order.map sent) = .ok (d, out) ∧ ¬ Covers s out := by
  have hnd : order.Nodup := horder.nodup_iff.mpr (List.nodup_finRange 32)
  have hnew : Emptied config s (new config rs) [] := ⟨rfl, rfl, Nat.zero_le s, nofun⟩
  obtain ⟨d, out, hrun, hE⟩ := hnew.pushAll hC h0 hs hsent hnd
  refine ⟨d, out, hrun, fun hcovers => ?_⟩
  obtain ⟨b, hb, _, _, hle⟩ := hcovers 1 (by decide)
  rw [hE.first b hb] at hle
  contradiction

/-! ### Every lookback -/

/-- From a fresh Deshredder the whole set is handed out, each shred once, for every
lookback but 0. -/
theorem covers_once_iff (config : Config) (rs : ReedSolomon) (h4 : 4 * config.slotLookback < 2 ^ 64) (s : ℕ)
    (hs : s + config.slotLookback < 2 ^ 64) (hC : ConsistentData config s root signature D) (sent : Fin 32 → Bytes)
    (hsent : ∀ p, Shred.parse (sent p) = .ok (D p)) (order : List (Fin 32)) (horder : order.Perm (List.finRange 32)) :
    ∃ d out, (new config rs).pushAll (order.map sent) = .ok (d, out) ∧
      (CoversOnce s out ↔ 1 ≤ config.slotLookback) := by
  by_cases h1 : 1 ≤ config.slotLookback
  · obtain ⟨d, out, hrun, honce⟩ := covers_once_of_room rs h1 h4 hs hC hsent horder
    exact ⟨d, out, hrun, fun _ => h1, fun _ => honce⟩
  · obtain ⟨d, out, hrun, hno⟩ := not_covers_of_zero rs (Nat.lt_one_iff.mp (Nat.not_le.mp h1)) hs hC hsent horder
    exact ⟨d, out, hrun, fun honce => absurd honce.covers hno, fun h => absurd h h1⟩

omit [Hasher] in
/-- With a lookback of 1, slot 0 in the reverse order. -/
theorem covers_once_iff_slot_0 :
    let S := @lineSet sha256Hasher 0 (by decide)
    ∃ d out, @pushAll sha256Hasher (new ⟨none, 1, true⟩ ReedSolomon.failing)
        ((List.finRange 32).reverse.map fun p => (S.data p).bytes) = .ok (d, out) ∧
      (CoversOnce 0 out ↔ 1 ≤ 1) := by
  intro S
  obtain ⟨root, signature, hC⟩ := @lineSet_consistentData sha256Hasher ⟨none, 1, true⟩ 0 (by decide) rfl
  exact @covers_once_iff sha256Hasher root signature S.data ⟨none, 1, true⟩ ReedSolomon.failing (by decide) 0 (by decide)
    hC (fun p => (S.data p).bytes) (fun p => Shred.parse_bytes _) _ (List.reverse_perm _)

omit [Hasher] in
/-- With a lookback of 0, slot 5 never gets through, not even in order. -/
theorem slot_5_dropped :
    let S := @lineSet sha256Hasher 5 (by decide)
    ∃ root signature d out, @ConsistentData sha256Hasher ⟨none, 0, true⟩ 5 root signature S.data ∧
      (∀ p, Shred.parse (S.data p).bytes = .ok (S.data p)) ∧
      @pushAll sha256Hasher (new ⟨none, 0, true⟩ ReedSolomon.failing)
        ((List.finRange 32).map fun p => (S.data p).bytes) = .ok (d, out) ∧ ¬ CoversOnce 5 out := by
  intro S
  obtain ⟨root, signature, hC⟩ := @lineSet_consistentData sha256Hasher ⟨none, 0, true⟩ 5 (by decide) rfl
  obtain ⟨d, out, hrun, hno⟩ := @not_covers_of_zero sha256Hasher ⟨none, 0, true⟩ 5 root signature S.data
    (fun p => (S.data p).bytes) (List.finRange 32) ReedSolomon.failing rfl (by decide) hC
    (fun p => Shred.parse_bytes _) (List.Perm.refl _)
  exact ⟨root, signature, d, out, hC, fun p => Shred.parse_bytes _, hrun, fun honce => hno honce.covers⟩

end Deshredder
end Deshred
