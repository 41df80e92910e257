import Deshred.Lib.OrdMap
import Deshred.SlotInsert

/-!
# The sans-IO core (deshredder.rs)

`pushRaw` takes one datagram and hands out the runs it completed. Additions on slot
numbers wrap around, as in a release build.
-/

namespace Deshred

structure Config where
  shredVersion : Option ℕ
  slotLookback : ℕ
  recover : Bool
  deriving DecidableEq

/-- One run of data shreds, not yet decoded. -/
structure RawBatch where
  slot : ℕ
  shreds : ℕ × ℕ
  lastInSlot : Bool
  bytes : Bytes
  deriving DecidableEq

structure Deshredder where
  config : Config
  slots : OrdMap ℕ SlotState
  highestSlot : ℕ
  rs : ReedSolomon
  stats : Stats

def wrappingAdd (a b : ℕ) : ℕ := (a + b) % 2 ^ 64
def wrappingMul (a b : ℕ) : ℕ := (a * b) % 2 ^ 64

namespace Deshredder

def new (config : Config) (rs : ReedSolomon) : Deshredder where
  config := config
  slots := OrdMap.empty
  highestSlot := 0
  rs := rs
  stats := Stats.default

/- The version check of `push_raw`. -/
def wrongVersion (d : Deshredder) (shred : Shred) : Bool :=
  d.config.shredVersion.any fun v => v ≠ shred.version

def isStale (d : Deshredder) (shred : Shred) : Bool :=
  wrappingAdd shred.slot d.config.slotLookback < d.highestSlot

def slotState (d : Deshredder) (slot : ℕ) : SlotState := (d.slots.find slot).getD SlotState.empty

def recoverWith (d : Deshredder) : Option ReedSolomon := if d.config.recover then some d.rs else none

/- Only a slot that produced a complete run moves the window. -/
def advances (d : Deshredder) (slot : ℕ) (segments : List Segment) : Bool :=
  segments ≠ [] ∧ d.highestSlot < slot

def prune (d : Deshredder) (slot : ℕ) (slots : OrdMap ℕ SlotState) : OrdMap ℕ SlotState :=
  slots.popFirstWhile fun oldest => wrappingAdd oldest d.config.slotLookback < slot

/- Bound memory if garbage keeps creating far-future slots. -/
def bound (d : Deshredder) (slots : OrdMap ℕ SlotState) : OrdMap ℕ SlotState :=
  slots.popLastUntil (wrappingMul 4 d.config.slotLookback)

/- What `push_raw` does once the slot has taken in the shred. -/
def settle (d : Deshredder) (slot : ℕ) (state : SlotState) (stats : Stats) (segments : List Segment) :
    Deshredder where
  config := d.config
  slots := d.bound (if d.advances slot segments then d.prune slot (d.slots.insert slot state)
    else d.slots.insert slot state)
  highestSlot := if d.advances slot segments then slot else d.highestSlot
  rs := d.rs
  stats := { stats with batches := stats.batches + UInt64.ofNat segments.length }

def rawBatch (slot : ℕ) (segment : Segment) : RawBatch :=
  ⟨slot, segment.shreds, segment.lastInSlot, segment.bytes⟩

section
variable [Hasher]

def pushRaw (d : Deshredder) (packet : Bytes) : Except Panic (Deshredder × List RawBatch) :=
  let stats := { d.stats with packets := d.stats.packets + 1 }
  match Shred.parse packet with
  | .error _ => .ok ({ d with stats := { stats with invalid := stats.invalid + 1 } }, [])
  | .ok shred =>
    if d.wrongVersion shred then
      .ok ({ d with stats := { stats with wrongVersion := stats.wrongVersion + 1 } }, [])
    else if d.isStale shred then
      .ok ({ d with stats := { stats with stale := stats.stale + 1 } }, [])
    else
      match (d.slotState shred.slot).insert shred d.recoverWith stats with
      | .error p => .error p
      | .ok (state, stats, segments) =>
        .ok (d.settle shred.slot state stats segments, segments.map (rawBatch shred.slot))

/-- All datagrams of a capture, in order. -/
def pushAll (d : Deshredder) (packets : List Bytes) : Except Panic (Deshredder × List RawBatch) :=
  Steps.runAll pushRaw d packets

/- States some sequence of datagrams leads to. -/
def Reachable (d₀ d : Deshredder) : Prop := Steps.Reachable pushRaw d₀ d

/-- The shred of the datagram reached its slot. -/
structure Admitted (d : Deshredder) (packet : Bytes) (x : Shred) : Prop where
  parsed : Shred.parse packet = .ok x
  version : d.wrongVersion x = false
  fresh : d.isStale x = false

/-- The ways `push_raw` returns. -/
inductive Pushed (d : Deshredder) (packet : Bytes) : Deshredder → List RawBatch → Prop where
  | dropped (stats : Stats) (h : ∀ x, ¬ Admitted d packet x) :
      Pushed d packet { d with stats := stats } []
  | inserted (x : Shred) (state : SlotState) (stats stats' : Stats) (segments : List Segment)
      (hx : Admitted d packet x)
      (h : (d.slotState x.slot).insert x d.recoverWith stats = .ok (state, stats', segments)) :
      Pushed d packet (d.settle x.slot state stats' segments) (segments.map (rawBatch x.slot))

theorem pushRaw_cases {d d' : Deshredder} {packet : Bytes} {out : List RawBatch}
    (h : d.pushRaw packet = .ok (d', out)) : Pushed d packet d' out := by
  unfold pushRaw at h
  dsimp only at h
  split at h
  · rename_i e he
    cases h
    refine .dropped _ fun x hx => ?_
    have hp := hx.parsed
    rw [he] at hp
    contradiction
  · rename_i x hx
    have hsame : ∀ y, Admitted d packet y → y = x := by
      intro y hy
      exact Except.ok.inj (hy.parsed.symm.trans hx)
    split at h
    · rename_i hv
      cases h
      refine .dropped _ fun y hy => ?_
      have hver := hy.version
      rw [hsame y hy, hv] at hver
      contradiction
    · rename_i hv
      split at h
      · rename_i hs
        cases h
        refine .dropped _ fun y hy => ?_
        have hst := hy.fresh
        rw [hsame y hy, hs] at hst
        contradiction
      · rename_i hs
        split at h
        · contradiction
        · rename_i state stats' segments hins
          cases h
          exact .inserted x state _ stats' segments ⟨hx, by simpa using hv, by simpa using hs⟩ hins

theorem pushRaw_error {d : Deshredder} {packet : Bytes} {p : Panic} (h : d.pushRaw packet = .error p) :
    ∃ x stats, Admitted d packet x ∧ (d.slotState x.slot).insert x d.recoverWith stats = .error p := by
  unfold pushRaw at h
  dsimp only at h
  split at h
  · contradiction
  · rename_i x hx
    split at h
    · contradiction
    · rename_i hv
      split at h
      · contradiction
      · rename_i hs
        split at h
        · rename_i hins
          cases h
          exact ⟨x, _, ⟨hx, by simpa using hv, by simpa using hs⟩, hins⟩
        · contradiction

theorem pushRaw_admitted {d : Deshredder} {packet : Bytes} {x : Shred} (h : Admitted d packet x) :
    d.pushRaw packet =
      match (d.slotState x.slot).insert x d.recoverWith { d.stats with packets := d.stats.packets + 1 } with
      | .error p => .error p
      | .ok (state, stats, segments) =>
        .ok (d.settle x.slot state stats segments, segments.map (rawBatch x.slot)) := by
  simp only [pushRaw, h.parsed]
  rw [if_neg (by simp [h.version]), if_neg (by simp [h.fresh])]

end

end Deshredder
end Deshred
