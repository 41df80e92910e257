import Deshred.Lib.FixedBits
import Deshred.Lib.Steps
import Deshred.Fec

/-!
# Per-slot assembly (slot.rs, stats.rs)

A slot keeps its FEC sets and three bits for each data shred index. `insert` stores
one shred, runs recovery if it became possible, and emits every run of data shreds
that is now complete.
-/

namespace Deshred

/- Counters, which wrap around. -/
structure Stats where
  (packets invalid wrongVersion stale duplicates unneeded rejected recovered recoveryFailures batches
    blockMarkers decodeErrors entries transactions dropped : UInt64)
  deriving DecidableEq

def Stats.default : Stats := ⟨0, 0, 0, 0, 0, 0, 0, 0, 0, 0, 0, 0, 0, 0, 0⟩

/-- The bytes of one complete run; `shreds` are its first and last index. -/
structure Segment where
  shreds : ℕ × ℕ
  bytes : Bytes
  lastInSlot : Bool
  deriving DecidableEq

structure SlotState where
  sets : ℕ → Option FecSet
  received : FixedBits maxShredsPerSlot
  complete : FixedBits maxShredsPerSlot
  consumed : FixedBits maxShredsPerSlot

namespace SlotState

def empty : SlotState where
  sets := fun _ => none
  received := FixedBits.withCapacity _
  complete := FixedBits.withCapacity _
  consumed := FixedBits.withCapacity _

def setIsConsumed (state : SlotState) (fecSetIndex : ℕ) : Except Panic Bool :=
  match state.consumed.countOnes fecSetIndex (fecSetIndex + dataShredsPerFecSet) with
  | none => .error .countOnesOutOfRange
  | some ones => .ok (ones = dataShredsPerFecSet)

/- The first loop of `find_segment`. -/
def findEnd (state : SlotState) (last : ℕ) : Option ℕ :=
  if state.received.contains last = false then none
  else if state.complete.contains last then some last
  else if _h : maxShredsPerSlot ≤ last + 1 then none
  else state.findEnd (last + 1)
termination_by maxShredsPerSlot - last
decreasing_by omega

/- The second loop of `find_segment`. -/
def findStart (state : SlotState) : ℕ → Option ℕ
  | 0 => some 0
  | start + 1 =>
    if state.complete.contains start then some (start + 1)
    else if state.received.contains start = false then none
    else state.findStart start

/-- Bounds of the run containing `index`, if every shred in it is present. -/
def findSegment (state : SlotState) (index : ℕ) : Option (ℕ × ℕ) :=
  match state.findEnd index with
  | none => none
  | some last =>
    match state.findStart index with
    | none => none
    | some start => some (start, last)

def data (state : SlotState) (index : ℕ) : Except Panic Shred :=
  match state.sets (index - index % 32) with
  | none => .error .setNotFound
  | some set =>
    match set.data ⟨index % 32, Position.mod_lt _⟩ with
    | none => .error .receivedWithoutShred
    | some shred => .ok shred

/- `bytes.extend_from_slice(self.data(i).data())` for every index of the list. -/
def concatData (state : SlotState) : List ℕ → Except Panic Bytes
  | [] => .ok []
  | i :: rest =>
    match state.data i with
    | .error p => .error p
    | .ok shred =>
      match state.concatData rest with
      | .error p => .error p
      | .ok bytes => .ok (shred.data ++ bytes)

def removeSet (state : SlotState) (fecSetIndex : ℕ) : SlotState :=
  { state with sets := Function.update state.sets fecSetIndex none }

/- Free sets that have nothing left to give. -/
def freeSets (state : SlotState) : List ℕ → Except Panic SlotState
  | [] => .ok state
  | fecSetIndex :: rest =>
    match state.setIsConsumed fecSetIndex with
    | .error p => .error p
    | .ok true => (state.removeSet fecSetIndex).freeSets rest
    | .ok false => state.freeSets rest

/- The last part of `try_complete`, for a run that is present. -/
def emit (state : SlotState) (start last : ℕ) : Except Panic (SlotState × List Segment) :=
  match state.concatData (List.range' start (last - start + 1)) with
  | .error p => .error p
  | .ok bytes =>
    match state.data last with
    | .error p => .error p
    | .ok lastShred =>
      match state.consumed.insertRange start (last + 1) with
      | none => .error .insertRangeOutOfRange
      | some consumed =>
        let firstSet := start - start % dataShredsPerFecSet
        let sets := List.range' firstSet ((last - firstSet) / dataShredsPerFecSet + 1) dataShredsPerFecSet
        match { state with consumed := consumed }.freeSets sets with
        | .error p => .error p
        | .ok state => .ok (state, [⟨(start, last), bytes, lastShred.lastInSlot⟩])

def tryComplete (state : SlotState) (index : ℕ) : Except Panic (SlotState × List Segment) :=
  if maxShredsPerSlot ≤ index ∨ state.consumed.contains index then .ok (state, [])
  else
    match state.findSegment index with
    | none => .ok (state, [])
    | some (start, last) => state.emit start last

/- `set.data((i - fec_set_index) as usize).unwrap()`. -/
def freshShred (set : FecSet) (fecSetIndex i : ℕ) : Except Panic Shred :=
  if h : fecSetIndex ≤ i ∧ i - fecSetIndex < 32 then
    match set.data ⟨i - fecSetIndex, h.2⟩ with
    | none => .error .freshWithoutShred
    | some shred => .ok shred
  else .error .freshOutOfBounds

/- The loop that sets the bits of the indexes that became available. -/
def markFresh (set : FecSet) (fecSetIndex : ℕ) : List ℕ → SlotState → Except Panic SlotState
  | [], state => .ok state
  | i :: rest, state =>
    match freshShred set fecSetIndex i with
    | .error p => .error p
    | .ok shred =>
      match state.received.insert i with
      | none => .error .insertOutOfRange
      | some received =>
        if shred.dataComplete then
          match state.complete.insert i with
          | none => .error .insertOutOfRange
          | some complete => markFresh set fecSetIndex rest { state with received, complete }
        else markFresh set fecSetIndex rest { state with received }

def recoverSet (set : FecSet) (rs : Option ReedSolomon) (stats : Stats) :
    Except Panic (FecSet × Stats × List ℕ) :=
  match rs with
  | none => .ok (set, stats, [])
  | some rs =>
    if set.canRecover then
      match set.recover rs with
      | .error p => .error p
      | .ok (set, .ok indexes) =>
        .ok (set, { stats with recovered := stats.recovered + UInt64.ofNat indexes.length }, indexes)
      | .ok (set, .error _) => .ok (set, { stats with recoveryFailures := stats.recoveryFailures + 1 }, [])
    else .ok (set, stats, [])

/- Recovery counts only what it recovered and where it failed. -/
theorem recoverSet_stats {set set' : FecSet} {rs : Option ReedSolomon} {stats stats' : Stats} {indexes : List ℕ}
    (h : recoverSet set rs stats = .ok (set', stats', indexes)) :
    ∃ recovered failures, stats' = { stats with recovered := recovered, recoveryFailures := failures } := by
  unfold recoverSet at h
  split at h
  · cases h
    exact ⟨_, _, rfl⟩
  · split at h
    · split at h
      · contradiction
      · cases h
        exact ⟨_, _, rfl⟩
      · cases h
        exact ⟨_, _, rfl⟩
    · cases h
      exact ⟨_, _, rfl⟩

def putSet (state : SlotState) (fecSetIndex : ℕ) (set : FecSet) : SlotState :=
  { state with sets := Function.update state.sets fecSetIndex (some set) }

section
variable [Hasher]

/- The shred goes into its set, which is created if it is not there. Returns the
indexes that became available, at most a whole set. -/
def storeInSet (state : SlotState) (shred : Shred) (rs : Option ReedSolomon) (stats : Stats) :
    Except Panic (SlotState × Stats × List ℕ) :=
  let fecSetIndex := shred.fecSetIndex
  match ((state.sets fecSetIndex).getD FecSet.empty).insert shred with
  | (set, .duplicate) => .ok (state.putSet fecSetIndex set, { stats with duplicates := stats.duplicates + 1 }, [])
  | (set, .unneeded) => .ok (state.putSet fecSetIndex set, { stats with unneeded := stats.unneeded + 1 }, [])
  | (set, .rejected _) => .ok (state.putSet fecSetIndex set, { stats with rejected := stats.rejected + 1 }, [])
  | (set, .new) =>
    match recoverSet set rs stats with
    | .error p => .error p
    | .ok (set, stats, indexes) =>
      let fresh := (if shred.isData then [shred.index] else []) ++ indexes
      if dataShredsPerFecSet < fresh.length then .error .freshOutOfBounds
      else
        match markFresh set fecSetIndex fresh (state.putSet fecSetIndex set) with
        | .error p => .error p
        | .ok state => .ok (state, stats, fresh)

/- `insert` up to its last loop. -/
def store (state : SlotState) (shred : Shred) (rs : Option ReedSolomon) (stats : Stats) :
    Except Panic (SlotState × Stats × List ℕ) :=
  if shred.isData ∧ state.received.contains shred.index then
    .ok (state, { stats with duplicates := stats.duplicates + 1 }, [])
  else
    match if shred.isData then .ok false else state.setIsConsumed shred.fecSetIndex with
    | .error p => .error p
    | .ok true => .ok (state, { stats with unneeded := stats.unneeded + 1 }, [])
    | .ok false => state.storeInSet shred rs stats

/- One round of the last loop. The run after a `DATA_COMPLETE` shred may have been
waiting only for this boundary to become known. -/
def completeAt (state : SlotState) (i : ℕ) : Except Panic (SlotState × List Segment) :=
  match state.tryComplete i with
  | .error p => .error p
  | .ok (state, out) =>
    if state.complete.contains i then
      match state.tryComplete (i + 1) with
      | .error p => .error p
      | .ok (state, out') => .ok (state, out ++ out')
    else .ok (state, out)

def insert (state : SlotState) (shred : Shred) (rs : Option ReedSolomon) (stats : Stats) :
    Except Panic (SlotState × Stats × List Segment) :=
  match state.store shred rs stats with
  | .error p => .error p
  | .ok (state, stats, fresh) =>
    match Steps.runAll completeAt state fresh with
    | .error p => .error p
    | .ok (state, out) => .ok (state, stats, out)

/-! A slot never touches the counters of its callers. -/

structure CallersCounts (stats stats' : Stats) : Prop where
  packets : stats'.packets = stats.packets
  invalid : stats'.invalid = stats.invalid
  wrongVersion : stats'.wrongVersion = stats.wrongVersion
  stale : stats'.stale = stats.stale
  dropped : stats'.dropped = stats.dropped

theorem store_counts {state state' : SlotState} {shred : Shred} {rs : Option ReedSolomon} {stats stats' : Stats}
    {fresh : List ℕ} (h : state.store shred rs stats = .ok (state', stats', fresh)) : CallersCounts stats stats' := by
  unfold store at h
  split at h
  · cases h
    exact ⟨rfl, rfl, rfl, rfl, rfl⟩
  · split at h
    · contradiction
    · cases h
      exact ⟨rfl, rfl, rfl, rfl, rfl⟩
    · unfold storeInSet at h
      dsimp only at h
      split at h
      · cases h
        exact ⟨rfl, rfl, rfl, rfl, rfl⟩
      · cases h
        exact ⟨rfl, rfl, rfl, rfl, rfl⟩
      · cases h
        exact ⟨rfl, rfl, rfl, rfl, rfl⟩
      · split at h
        · contradiction
        · rename_i set stats₁ indexes hrec
          generalize (if shred.isData then [shred.index] else []) ++ indexes = available at h
          split at h
          · contradiction
          · split at h
            · contradiction
            · cases h
              obtain ⟨recovered, failures, rfl⟩ := recoverSet_stats hrec
              exact ⟨rfl, rfl, rfl, rfl, rfl⟩

theorem insert_counts {state state' : SlotState} {shred : Shred} {rs : Option ReedSolomon} {stats stats' : Stats}
    {out : List Segment} (h : state.insert shred rs stats = .ok (state', stats', out)) : CallersCounts stats stats' := by
  unfold insert at h
  split at h
  · contradiction
  · rename_i hstore
    split at h
    · contradiction
    · cases h
      exact store_counts hstore

end

/- A counter that was raised is not what it was. -/
theorem counter_ne (n : UInt64) : n ≠ n + 1 := by
  intro h
  have hval := congrArg UInt64.toNat h
  rw [UInt64.toNat_add] at hval
  have hlt := n.toNat_lt
  have hone : (1 : UInt64).toNat = 1 := rfl
  omega

end SlotState
end Deshred
