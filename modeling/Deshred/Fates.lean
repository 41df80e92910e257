import Deshred.Deshredder

/-!
# What became of a datagram (stats.rs)

A push counts its datagram under one heading, or stores its shred.
-/

namespace Deshred

/-- What became of a datagram. -/
inductive Fate where
  | invalid
  | wrongVersion
  | stale
  | duplicate
  | unneeded
  | rejected
  | stored
  deriving DecidableEq

def Fate.tally (fate heading : Fate) : UInt64 := if fate = heading then 1 else 0

/- The counters of the headings, one of them raised. -/
def Stats.count (stats : Stats) (fate : Fate) : Stats :=
  { stats with
    invalid := stats.invalid + fate.tally .invalid
    wrongVersion := stats.wrongVersion + fate.tally .wrongVersion
    stale := stats.stale + fate.tally .stale
    duplicates := stats.duplicates + fate.tally .duplicate
    unneeded := stats.unneeded + fate.tally .unneeded
    rejected := stats.rejected + fate.tally .rejected }

namespace SlotState
variable [Hasher]

/-- How a slot takes a shred. -/
def fate (state : SlotState) (x : Shred) : Fate :=
  if x.isData ∧ state.received.contains x.index then .duplicate
  else if x.isData = false ∧ state.setIsConsumed x.fecSetIndex = .ok true then .unneeded
  else
    match (((state.sets x.fecSetIndex).getD FecSet.empty).insert x).2 with
    | .new => .stored
    | .duplicate => .duplicate
    | .unneeded => .unneeded
    | .rejected _ => .rejected

/- Data shreds that came in themselves. -/
def arrived (state : SlotState) (x : Shred) : ℕ := if state.fate x = .stored ∧ x.isData then 1 else 0

/- What a call does to the counters. -/
structure Counts (state : SlotState) (x : Shred) (stats stats' : Stats) (fresh : List ℕ) : Prop where
  stats_eq : stats' = { stats.count (state.fate x) with
    recovered := stats'.recovered, recoveryFailures := stats'.recoveryFailures }
  recovered : stats'.recovered + UInt64.ofNat (state.arrived x) = stats.recovered + UInt64.ofNat fresh.length
  quiet : state.fate x ≠ .stored → fresh = []

/-- A shred that is not stored counts under its heading only. -/
theorem Counts.of_fate {state : SlotState} {x : Shred} {fate : Fate} {stats stats' : Stats} (h : state.fate x = fate)
    (hne : fate ≠ .stored) (hstats : stats' = stats.count fate) : Counts state x stats stats' [] := by
  rw [hstats]
  refine ⟨by rw [h], ?_, fun _ => rfl⟩
  have harrived : state.arrived x = 0 := if_neg fun hs => hne (h.symm.trans hs.1)
  rw [harrived]
  rfl

omit [Hasher] in
theorem recoverSet_counts {set set' : FecSet} {rs : Option ReedSolomon} {stats stats' : Stats} {indexes : List ℕ}
    (h : recoverSet set rs stats = .ok (set', stats', indexes)) :
    stats' = { stats with recovered := stats'.recovered, recoveryFailures := stats'.recoveryFailures } ∧
      stats'.recovered = stats.recovered + UInt64.ofNat indexes.length := by
  unfold recoverSet at h
  split at h
  · cases h
    exact ⟨rfl, (UInt64.add_zero _).symm⟩
  · split at h
    · split at h
      · contradiction
      · cases h
        exact ⟨rfl, rfl⟩
      · cases h
        exact ⟨rfl, (UInt64.add_zero _).symm⟩
    · cases h
      exact ⟨rfl, (UInt64.add_zero _).symm⟩

theorem storeInSet_counts {state mid : SlotState} {x : Shred} {rs : Option ReedSolomon} {stats stats' : Stats}
    {fresh : List ℕ} (hdup : ¬ (x.isData ∧ state.received.contains x.index))
    (hlive : ¬ (x.isData = false ∧ state.setIsConsumed x.fecSetIndex = .ok true))
    (h : state.storeInSet x rs stats = .ok (mid, stats', fresh)) : Counts state x stats stats' fresh := by
  unfold storeInSet at h
  dsimp only at h
  split at h
  · rename_i hins
    have hfate : state.fate x = .duplicate := by rw [fate, if_neg hdup, if_neg hlive, hins]
    cases h
    exact .of_fate hfate (by decide) (by simp [Stats.count, Fate.tally])
  · rename_i hins
    have hfate : state.fate x = .unneeded := by rw [fate, if_neg hdup, if_neg hlive, hins]
    cases h
    exact .of_fate hfate (by decide) (by simp [Stats.count, Fate.tally])
  · rename_i hins
    have hfate : state.fate x = .rejected := by rw [fate, if_neg hdup, if_neg hlive, hins]
    cases h
    exact .of_fate hfate (by decide) (by simp [Stats.count, Fate.tally])
  · rename_i hins
    have hfate : state.fate x = .stored := by rw [fate, if_neg hdup, if_neg hlive, hins]
    split at h
    · contradiction
    · rename_i set stats₁ indexes hrec
      obtain ⟨hstats, hrecovered⟩ := recoverSet_counts hrec
      have hlen : ((if x.isData then [x.index] else []) ++ indexes).length = state.arrived x + indexes.length := by
        rw [List.length_append, arrived, hfate]
        cases x.isData with
        | true => rfl
        | false => rfl
      generalize (if x.isData then [x.index] else []) ++ indexes = available at h hlen
      split at h
      · contradiction
      · split at h
        · contradiction
        · cases h
          refine ⟨?_, ?_, fun hne => absurd hfate hne⟩
          · rw [hfate, hstats]
            simp [Stats.count, Fate.tally]
          · rw [hrecovered, hlen, UInt64.ofNat_add, UInt64.add_assoc, UInt64.add_comm (UInt64.ofNat indexes.length)]

theorem store_counts_once {state mid : SlotState} {x : Shred} {rs : Option ReedSolomon} {stats stats' : Stats}
    {fresh : List ℕ} (h : state.store x rs stats = .ok (mid, stats', fresh)) : Counts state x stats stats' fresh := by
  unfold store at h
  split at h
  · rename_i hdup
    have hfate : state.fate x = .duplicate := if_pos hdup
    cases h
    exact .of_fate hfate (by decide) (by simp [Stats.count, Fate.tally])
  · rename_i hdup
    split at h
    · contradiction
    · rename_i hcons
      have hfate : state.fate x = .unneeded := by
        rw [fate, if_neg hdup]
        refine if_pos ?_
        split at hcons
        · simp at hcons
        · rename_i hk
          exact ⟨Bool.eq_false_of_not_eq_true hk, hcons⟩
      cases h
      exact .of_fate hfate (by decide) (by simp [Stats.count, Fate.tally])
    · rename_i hcons
      refine storeInSet_counts hdup ?_ h
      rintro ⟨hk, hc⟩
      rw [hk] at hcons
      simp only [Bool.false_eq_true, if_false] at hcons
      rw [hc] at hcons
      simp at hcons

theorem insert_counts_once {state state' : SlotState} {x : Shred} {rs : Option ReedSolomon} {stats stats' : Stats}
    {out : List Segment} (h : state.insert x rs stats = .ok (state', stats', out)) :
    stats' = { stats.count (state.fate x) with
      recovered := stats'.recovered, recoveryFailures := stats'.recoveryFailures } := by
  unfold insert at h
  split at h
  · contradiction
  · rename_i hstore
    split at h
    · contradiction
    · cases h
      exact (store_counts_once hstore).stats_eq

/-- What brings out a segment was stored. -/
theorem fate_of_emits {state state' : SlotState} {x : Shred} {rs : Option ReedSolomon} {stats stats' : Stats}
    {out : List Segment} (h : state.insert x rs stats = .ok (state', stats', out)) (hne : out ≠ []) :
    state.fate x = .stored := by
  unfold insert at h
  split at h
  · contradiction
  · rename_i mid stats₁ fresh hstore
    by_contra hfate
    rw [(store_counts_once hstore).quiet hfate] at h
    cases h
    exact hne rfl

end SlotState

namespace Deshredder
variable [Hasher] {d d' : Deshredder} {packet : Bytes}

/-- What becomes of a datagram that is pushed. -/
def fate (d : Deshredder) (packet : Bytes) : Fate :=
  match Shred.parse packet with
  | .error _ => .invalid
  | .ok x =>
    if d.wrongVersion x then .wrongVersion
    else if d.isStale x then .stale
    else (d.slotState x.slot).fate x

theorem pushRaw_counts_once {raws : List RawBatch} (h : d.pushRaw packet = .ok (d', raws)) :
    d'.stats = { ({ d.stats with packets := d.stats.packets + 1 }).count (d.fate packet) with
      recovered := d'.stats.recovered
      recoveryFailures := d'.stats.recoveryFailures
      batches := d.stats.batches + UInt64.ofNat raws.length } := by
  unfold pushRaw at h
  dsimp only at h
  split at h
  · rename_i hp
    have hfate : d.fate packet = .invalid := by rw [fate, hp]
    cases h
    rw [hfate]
    simp [Stats.count, Fate.tally]
  · rename_i x hp
    split at h
    · rename_i hv
      have hfate : d.fate packet = .wrongVersion := by rw [fate, hp]; exact if_pos hv
      cases h
      rw [hfate]
      simp [Stats.count, Fate.tally]
    · rename_i hv
      split at h
      · rename_i hs
        have hfate : d.fate packet = .stale := by
          rw [fate, hp]
          dsimp only
          rw [if_neg hv, if_pos hs]
        cases h
        rw [hfate]
        simp [Stats.count, Fate.tally]
      · rename_i hs
        have hfate : d.fate packet = (d.slotState x.slot).fate x := by
          rw [fate, hp]
          dsimp only
          rw [if_neg hv, if_neg hs]
        split at h
        · contradiction
        · rename_i state stats segments hins
          have hcounts := SlotState.insert_counts_once hins
          cases h
          rw [hfate]
          dsimp only [settle]
          rw [hcounts, List.length_map]
          rfl

theorem fate_admitted {x : Shred} (hx : Admitted d packet x) : d.fate packet = (d.slotState x.slot).fate x := by
  rw [fate, hx.parsed]
  dsimp only
  rw [hx.version, hx.fresh, if_neg Bool.false_ne_true, if_neg Bool.false_ne_true]

end Deshredder
end Deshred
