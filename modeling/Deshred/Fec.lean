import Deshred.Shred
import Mathlib.Data.Fintype.Card
import Mathlib.Data.List.FinRange
import Mathlib.Data.List.ReduceOption

/-!
# One FEC set (fec.rs)

32 data shreds protected by 32 Reed-Solomon code shreds. `insert` accepts a shred
whose recomputed root and signature agree with the set's first; `recover` rebuilds
the missing data shreds once any 32 of the 64 are present.
-/

namespace Deshred

/- The places where the source would panic. -/
inductive Panic where
  | countOnesOutOfRange
  | insertOutOfRange
  | insertRangeOutOfRange
  | freshOutOfBounds
  | freshWithoutShred
  | receivedWithoutShred
  | setNotFound
  | noTemplate
  | copyOutOfRange
  deriving DecidableEq

inductive Reject where
  | badProof
  | merkleRootMismatch
  | signatureMismatch
  deriving DecidableEq

inductive Insert where
  | new
  | duplicate
  | unneeded
  | rejected (why : Reject)
  deriving DecidableEq

/- The Reed-Solomon error itself is only logged. -/
inductive RecoverError where
  | reedSolomon
  | invalidShred (error : ShredError)
  | wrongHeaders (index : ℕ)
  deriving DecidableEq

/-- What `reconstruct_data` leaves alone when it succeeds: the number of shards,
their lengths, the present flags, and the shards that were present. -/
structure Keeps (shards out : List (Bytes × Bool)) : Prop where
  flags : out.map Prod.snd = shards.map Prod.snd
  lengths : (out.map fun x => x.1.length) = shards.map fun x => x.1.length
  present : ∀ (i : ℕ) (b : Bytes), shards[i]? = some (b, true) → out[i]? = some (b, true)

/-- `reed_solomon_erasure::galois_8::ReedSolomon` for 32 data and 32 code shards;
`none` is its error. -/
structure ReedSolomon where
  reconstructData : List (Bytes × Bool) → Option (List (Bytes × Bool))
  keeps : ∀ shards out, reconstructData shards = some out → Keeps shards out

/- A decoder that rebuilds nothing. -/
def ReedSolomon.failing : ReedSolomon where
  reconstructData _ := none
  keeps := by simp

structure FecSet where
  data : Fin 32 → Option Shred
  code : Fin 32 → Option Shred
  numData : ℕ
  numCode : ℕ
  root : Option Hash32
  signature : Signature

namespace FecSet

def empty : FecSet where
  data := fun _ => none
  code := fun _ => none
  numData := 0
  numCode := 0
  root := none
  signature := ⟨List.replicate 64 0, Signature.zero_length⟩

def isComplete (set : FecSet) : Bool := set.numData = dataShredsPerFecSet

def canRecover (set : FecSet) : Bool :=
  !set.isComplete && 0 < set.numCode && dataShredsPerFecSet ≤ set.numData + set.numCode

def dropCode (set : FecSet) : FecSet := { set with code := fun _ => none, numCode := 0 }

def get (set : FecSet) (shred : Shred) : Option Shred :=
  match shred.position with
  | .data p => set.data p
  | .code p => set.code p

/- The end of `insert`: the shred goes into its array, and a set that is now
complete drops its code shreds. -/
def place (set : FecSet) (shred : Shred) : FecSet :=
  let set := match shred.position with
    | .data p => { set with data := Function.update set.data p (some shred), numData := set.numData + 1 }
    | .code p => { set with code := Function.update set.code p (some shred), numCode := set.numCode + 1 }
  if set.isComplete then set.dropCode else set

def insert [Hasher] (set : FecSet) (shred : Shred) : FecSet × Insert :=
  if shred.kind = .code ∧ set.isComplete then (set, .unneeded)
  else if (set.get shred).isSome then (set, .duplicate)
  else
    match shred.merkleRoot with
    | none => (set, .rejected .badProof)
    | some root =>
      match set.root with
      | none => (place { set with root := some root, signature := shred.signature } shred, .new)
      | some known =>
        if known ≠ root then (set, .rejected .merkleRootMismatch)
        else if set.signature ≠ shred.signature then (set, .rejected .signatureMismatch)
        else (set.place shred, .new)

def anyShred (set : FecSet) : Option Shred :=
  ((List.finRange 32).map set.code ++ (List.finRange 32).map set.data).reduceOption.head?

/- Input of the reconstruction: data positions first, a zeroed shard for each
missing one. -/
def shards (set : FecSet) (shardLen : ℕ) : List (Bytes × Bool) :=
  ((List.finRange 32).map set.data ++ (List.finRange 32).map set.code).map fun
    | some shred => (shred.erasureShard, true)
    | none => (List.replicate shardLen 0, false)

/-- `buf[start..start + src.len()].copy_from_slice(src)`. -/
def copyFromSlice (buf : Bytes) (start : ℕ) (src : Bytes) : Except Panic Bytes :=
  if start + src.length ≤ buf.length then .ok (buf.take start ++ src ++ buf.drop (start + src.length))
  else .error .copyOutOfRange

/- Same layout as a received data shred; the proof bytes stay zero. -/
def recoveredBytes (signature : Signature) (shard chainedRoot : Bytes)
    (retransmitterSignature : Option Signature) : Except Panic Bytes := do
  let bytes ← copyFromSlice (List.replicate dataShredSize 0) 0 signature.val
  let bytes ← copyFromSlice bytes signatureSize shard
  let bytes ← copyFromSlice bytes (signatureSize + shard.length) chainedRoot
  match retransmitterSignature with
  | some sig => copyFromSlice bytes (bytes.length - signatureSize) sig.val
  | none => return bytes

def recoveredShred (template : Shred) (position : Fin 32) (bytes : Bytes) : Except RecoverError Shred :=
  match Shred.parse bytes with
  | .error e => .error (.invalidShred e)
  | .ok shred =>
    let index := template.fecSetIndex + position
    if shred.kind ≠ .data ∨ shred.slot ≠ template.slot ∨ shred.index ≠ index ∨
        shred.fecSetIndex ≠ template.fecSetIndex ∨ shred.version ≠ template.version then
      .error (.wrongHeaders index)
    else .ok shred

def install (set : FecSet) (position : Fin 32) (shred : Shred) : FecSet :=
  { set with data := Function.update set.data position (some shred), numData := set.numData + 1 }

/- The loop of `recover` over the reconstructed data shards. An error leaves the
shreds installed so far in place. -/
def recoverLoop (template : Shred) : List (Fin 32 × Bytes × Bool) → FecSet → List ℕ →
    Except Panic (FecSet × Except RecoverError (List ℕ))
  | [], set, recovered => .ok (set.dropCode, .ok recovered)
  | (position, shard, present) :: rest, set, recovered =>
    if present then recoverLoop template rest set recovered
    else
      match recoveredBytes set.signature shard template.chainedMerkleRoot
          template.retransmitterSignature with
      | .error p => .error p
      | .ok bytes =>
        match recoveredShred template position bytes with
        | .error e => .ok (set, .error e)
        | .ok shred => recoverLoop template rest (set.install position shred)
            (recovered ++ [template.fecSetIndex + position])

/-- Rebuild the missing data shreds; returns their indexes. -/
def recover (set : FecSet) (rs : ReedSolomon) : Except Panic (FecSet × Except RecoverError (List ℕ)) :=
  match set.anyShred with
  | none => .error .noTemplate
  | some template =>
    match rs.reconstructData (set.shards template.erasureShard.length) with
    | none => .ok (set, .error .reedSolomon)
    | some shards => recoverLoop template ((List.finRange 32).zip shards) set []

end FecSet
end Deshred
