import Deshred.Fixture
import Deshred.Lib.Steps
import Deshred.Shred

/-!
# What eager recovery would save (bin/analyze-recovery.rs)

A capture is replayed shred by shred into one state for each FEC set, which counts
distinct arrivals and notes when the set could have been recovered and when its data was
complete.
-/

namespace Deshred
open Fixture

structure SetState where
  arrivals : List UInt64
  seenData : Fin 32 → Bool
  seenCode : Fin 32 → Bool
  numData : ℕ
  firstCodeAt : Option UInt64
  dataCompleteAt : Option UInt64
  thresholdAt : Option UInt64
  missingAtThreshold : ℕ

namespace SetState

def empty : SetState where
  arrivals := []
  seenData := fun _ => false
  seenCode := fun _ => false
  numData := 0
  firstCodeAt := none
  dataCompleteAt := none
  thresholdAt := none
  missingAtThreshold := 0

/- `erasure_shard_index() % 32`. -/
def place (shred : Shred) : Fin 32 := ⟨shred.erasureShardIndex % 32, Position.mod_lt _⟩

def seen (state : SetState) (shred : Shred) : Bool :=
  if shred.isData then state.seenData (place shred) else state.seenCode (place shred)

/- `*seen = true`. -/
def markSeen (state : SetState) (shred : Shred) : SetState :=
  if shred.isData then { state with seenData := Function.update state.seenData (place shred) true }
  else { state with seenCode := Function.update state.seenCode (place shred) true }

/- From the push of the arrival to the check of the threshold. -/
def arrive (state : SetState) (shred : Shred) (unixNanos : UInt64) : SetState :=
  let state := { state with arrivals := state.arrivals ++ [unixNanos] }
  if shred.isData then
    let state := { state with numData := state.numData + 1 }
    if state.numData = dataShredsPerFecSet then { state with dataCompleteAt := some unixNanos } else state
  else if state.firstCodeAt.isNone then { state with firstCodeAt := some unixNanos }
  else state

def atThreshold (state : SetState) : Bool :=
  state.arrivals.length = dataShredsPerFecSet ∧ state.firstCodeAt.isSome

/-- The body of the loop in `main`. -/
def update (state : SetState) (shred : Shred) (unixNanos : UInt64) : SetState :=
  if state.seen shred then state
  else
    let state := (state.markSeen shred).arrive shred unixNanos
    if state.atThreshold then
      { state with thresholdAt := some unixNanos, missingAtThreshold := dataShredsPerFecSet - state.numData }
    else state

/-- The update gets to the assignment of `threshold_at`. -/
def SetsThreshold (state : SetState) (shred : Shred) (unixNanos : UInt64) : Prop :=
  state.seen shred = false ∧ ((state.markSeen shred).arrive shred unixNanos).atThreshold = true

instance (state : SetState) (shred : Shred) (unixNanos : UInt64) : Decidable (state.SetsThreshold shred unixNanos) :=
  inferInstanceAs (Decidable (_ ∧ _))

/-- The state of a set after these shreds, each with its time of arrival. -/
def measured (arrived : List (Shred × UInt64)) : SetState :=
  arrived.foldl (fun state x => state.update x.1 x.2) empty

theorem measured_snoc (arrived : List (Shred × UInt64)) (shred : Shred) (unixNanos : UInt64) :
    measured (arrived ++ [(shred, unixNanos)]) = (measured arrived).update shred unixNanos := by
  rw [measured, List.foldl_append]
  rfl

/-! ### Classification -/

/-- How `main` counts a set. -/
inductive Class where
  | dataFirst
  | window (waitUs missing : ℕ)
  | neverComplete
  | neverRecoverable
  deriving DecidableEq

def classify (state : SetState) : Class :=
  match state.thresholdAt, state.dataCompleteAt with
  | some threshold, some complete =>
    if state.missingAtThreshold = 0 then .dataFirst
    else .window ((complete.toNat - threshold.toNat) / 1000) state.missingAtThreshold
  | some _, none => .neverComplete
  | none, some _ => .dataFirst
  | none, none => .neverRecoverable

end SetState

/-! ### The replay -/

/-- The states of all sets, by slot and set index. -/
abbrev Sets := ℕ × ℕ → Option SetState

def setKey (shred : Shred) : ℕ × ℕ := (shred.slot, shred.fecSetIndex)

namespace Sets

/- A datagram that is no shred is passed over. -/
def record (sets : Sets) (r : Record) : Sets :=
  match Shred.parse r.packet with
  | .error _ => sets
  | .ok shred =>
    let state := (sets (setKey shred)).getD SetState.empty
    Function.update sets (setKey shred) (some (state.update shred r.unixNanos))

def replay (records : List Record) : Sets := records.foldl record fun _ => none

/- A shred of the set `key`. -/
def arrival (key : ℕ × ℕ) (r : Record) : Option (Shred × UInt64) :=
  match Shred.parse r.packet with
  | .error _ => none
  | .ok shred => if setKey shred = key then some (shred, r.unixNanos) else none

theorem record_apply (sets : Sets) (r : Record) (key : ℕ × ℕ) : sets.record r key =
    match arrival key r with
    | none => sets key
    | some x => some (((sets key).getD SetState.empty).update x.1 x.2) := by
  unfold record arrival
  cases Shred.parse r.packet with
  | error e => rfl
  | ok shred =>
    dsimp only
    by_cases hkey : setKey shred = key
    · rw [if_pos hkey, hkey, Function.update_self]
    · rw [if_neg hkey, Function.update_of_ne (Ne.symm hkey)]

theorem replay_snoc (records : List Record) (r : Record) : replay (records ++ [r]) = (replay records).record r := by
  rw [replay, List.foldl_append]
  rfl

/-- Each set is measured on its own. -/
theorem replay_apply (records : List Record) (key : ℕ × ℕ) :
    replay records key = match records.filterMap (arrival key) with
      | [] => none
      | x :: xs => some (SetState.measured (x :: xs)) := by
  induction records using List.reverseRecOn with
  | nil => rfl
  | append_singleton records r ih =>
    rw [replay_snoc, record_apply, ih, List.filterMap_append, List.filterMap_cons]
    cases arrival key r with
    | none => simp
    | some x =>
      cases records.filterMap (arrival key) with
      | nil => rfl
      | cons y ys => simp [SetState.measured]

end Sets
end Deshred
