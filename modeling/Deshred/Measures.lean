import Deshred.Analysis
import Deshred.FecRuns

/-!
# The analysis and the library

The analysis counts distinct arrivals, the library what a FEC set holds, and each stops
counting at a moment of its own. Both are run on the same shreds of one consistent set and
compared with the set of places these came from.
-/

namespace Deshred

/-- The 32nd shred of a set, not all of them data: from here on the rest can be rebuilt. -/
structure Due (A : Finset Position) (q : Position) : Prop where
  fresh : q ∉ A
  card : (insert q A).card = 32
  code : (codeOf (insert q A)).Nonempty

theorem Due.card_lt {A : Finset Position} {q : Position} (h : Due A q) : A.card < 32 := by
  have hcard := h.card
  rw [Finset.card_insert_of_notMem h.fresh] at hcard
  omega

theorem dataOf_card_le (A : Finset Position) : (dataOf A).card ≤ 32 := by
  have hle := Finset.card_le_univ (dataOf A)
  rwa [Fintype.card_fin] at hle

theorem dataOf_full {A : Finset Position} : (dataOf A).card = 32 ↔ ∀ p, .data p ∈ A := by
  constructor
  · intro h p
    have huniv : dataOf A = Finset.univ := Finset.eq_univ_of_card _ (by rw [h, Fintype.card_fin])
    exact mem_dataOf.mp (huniv ▸ Finset.mem_univ p)
  · intro h
    have huniv : dataOf A = Finset.univ := Finset.eq_univ_iff_forall.mpr fun p => mem_dataOf.mpr (h p)
    rw [huniv, Finset.card_univ, Fintype.card_fin]

theorem dataOf_missing {A : Finset Position} (h : (dataOf A).card < 32) : ∃ p, .data p ∉ A := by
  by_contra hall
  simp only [not_exists, not_not] at hall
  exact h.ne (dataOf_full.mpr hall)

theorem dataOf_missing_of_card {A : Finset Position} (h : A.card < 32) : ∃ p, .data p ∉ A := by
  apply dataOf_missing
  have hsplit := card_split A
  omega

theorem due_iff {A : Finset Position} {q : Position} (hq : q ∉ A) :
    Due A q ↔ (insert q A).card = 32 ∧ (dataOf (insert q A)).card < 32 := by
  have hsplit := card_split (insert q A)
  constructor
  · intro h
    have hcard := h.card
    have hcode := Finset.card_pos.mpr h.code
    exact ⟨hcard, by omega⟩
  · intro ⟨hcard, hdata⟩
    exact ⟨hq, hcard, Finset.card_pos.mp (by omega)⟩

theorem dataOf_insert_data (A : Finset Position) (p : Fin 32) : dataOf (insert (.data p) A) = insert p (dataOf A) := by
  ext r
  simp [mem_dataOf]

theorem dataOf_insert_code (A : Finset Position) (p : Fin 32) : dataOf (insert (.code p) A) = dataOf A := by
  ext r
  simp [mem_dataOf]

theorem codeOf_insert_code (A : Finset Position) (p : Fin 32) : codeOf (insert (.code p) A) = insert p (codeOf A) := by
  ext r
  simp [mem_codeOf]

theorem codeOf_insert_data (A : Finset Position) (p : Fin 32) : codeOf (insert (.data p) A) = codeOf A := by
  ext r
  simp [mem_codeOf]

/-! ### What the analysis counts -/

namespace SetState
variable {A : Finset Position} {state : SetState} {x : Shred} {q : Position} {t : UInt64}

def seenAt (state : SetState) : Position → Bool
  | .data p => state.seenData p
  | .code p => state.seenCode p

theorem place_data {p : Fin 32} (h : x.position = .data p) : x.isData = true ∧ place x = p := by
  obtain ⟨hk, _, _, hidx⟩ := x.position_data h
  refine ⟨x.isData_iff.mpr hk, Fin.ext ?_⟩
  have hlt := p.isLt
  simp only [place, hidx]
  omega

theorem place_code {p : Fin 32} (h : x.position = .code p) : x.isData = false ∧ place x = p := by
  obtain ⟨hk, hidx⟩ := x.position_code h
  refine ⟨?_, Fin.ext ?_⟩
  · simp [Shred.isData, hk]
  · have hlt := p.isLt
    simp only [place, hidx]
    omega

theorem seen_eq (state : SetState) (h : x.position = q) : state.seen x = state.seenAt q := by
  cases q with
  | data p =>
    obtain ⟨hd, hp⟩ := place_data h
    rw [seen, if_pos hd, hp, seenAt]
  | code p =>
    obtain ⟨hd, hp⟩ := place_code h
    rw [seen, if_neg (by simp [hd]), hp, seenAt]

/-- The shreds at the places `A` were counted. -/
structure Tracks (A : Finset Position) (state : SetState) : Prop where
  seen : ∀ q, state.seenAt q = true ↔ q ∈ A
  arrivals : state.arrivals.length = A.card
  numData : state.numData = (dataOf A).card
  firstCodeAt : state.firstCodeAt.isSome = true ↔ (codeOf A).Nonempty
  dataCompleteAt : state.dataCompleteAt.isSome = true ↔ (dataOf A).card = 32

theorem Tracks.empty : Tracks ∅ SetState.empty where
  seen q := by cases q <;> simp [seenAt, SetState.empty]
  arrivals := rfl
  numData := rfl
  firstCodeAt := by simp [SetState.empty, codeOf]
  dataCompleteAt := by simp [SetState.empty, dataOf]

/- What a data shred that was not seen before changes. -/
theorem arrive_data {p : Fin 32} (h : x.position = .data p) (t : UInt64) : (state.markSeen x).arrive x t =
    { state with
      seenData := Function.update state.seenData p true
      arrivals := state.arrivals ++ [t]
      numData := state.numData + 1
      dataCompleteAt := if state.numData + 1 = dataShredsPerFecSet then some t else state.dataCompleteAt } := by
  obtain ⟨hd, hp⟩ := place_data h
  rw [markSeen, if_pos hd, hp, arrive]
  simp only [hd, ↓reduceIte]
  split
  · rfl
  · rfl

theorem arrive_code {p : Fin 32} (h : x.position = .code p) (t : UInt64) : (state.markSeen x).arrive x t =
    { state with
      seenCode := Function.update state.seenCode p true
      arrivals := state.arrivals ++ [t]
      firstCodeAt := state.firstCodeAt.or (some t) } := by
  obtain ⟨hd, hp⟩ := place_code h
  have hdata : ¬ x.isData = true := by simp [hd]
  rw [markSeen, if_neg hdata, hp, arrive]
  dsimp only
  rw [if_neg hdata]
  cases hfirst : state.firstCodeAt with
  | none => rfl
  | some first => simp

theorem seenAt_arrive (hx : x.position = q) (t : UInt64) (r : Position) :
    ((state.markSeen x).arrive x t).seenAt r = true ↔ r = q ∨ state.seenAt r = true := by
  cases q with
  | data p =>
    rw [arrive_data hx]
    cases r with
    | data r =>
      by_cases hrp : r = p
      · simp [seenAt, hrp]
      · simp [seenAt, hrp]
    | code r => simp [seenAt]
  | code p =>
    rw [arrive_code hx]
    cases r with
    | data r => simp [seenAt]
    | code r =>
      by_cases hrp : r = p
      · simp [seenAt, hrp]
      · simp [seenAt, hrp]

theorem Tracks.arrived (h : Tracks A state) (hx : x.position = q) (hq : q ∉ A) (t : UInt64) :
    Tracks (insert q A) ((state.markSeen x).arrive x t) := by
  have hcard := Finset.card_insert_of_notMem hq
  have hseen : ∀ r, ((state.markSeen x).arrive x t).seenAt r = true ↔ r ∈ insert q A := by
    intro r
    rw [seenAt_arrive hx, h.seen, Finset.mem_insert]
  cases q with
  | data p =>
    have hp : p ∉ dataOf A := fun hmem => hq (mem_dataOf.mp hmem)
    have hdata : (dataOf (insert (.data p) A)).card = (dataOf A).card + 1 := by
      rw [dataOf_insert_data, Finset.card_insert_of_notMem hp]
    have hle := dataOf_card_le (insert (.data p) A)
    rw [arrive_data hx] at hseen ⊢
    refine ⟨hseen, ?_, ?_, ?_, ?_⟩
    · rw [hcard, ← h.arrivals, List.length_append, List.length_singleton]
    · rw [hdata, ← h.numData]
    · rw [codeOf_insert_data]
      exact h.firstCodeAt
    · rw [hdata, h.numData]
      dsimp only
      split
      · rename_i hfull
        exact ⟨fun _ => hfull, fun _ => rfl⟩
      · rename_i hnot
        -- it was not complete before, as this data shred is new
        rw [h.dataCompleteAt]
        constructor
        · intro h32
          omega
        · exact fun h32 => absurd h32 hnot
  | code p =>
    rw [arrive_code hx] at hseen ⊢
    refine ⟨hseen, ?_, ?_, ?_, ?_⟩
    · rw [hcard, ← h.arrivals, List.length_append, List.length_singleton]
    · rw [dataOf_insert_code]
      exact h.numData
    · rw [codeOf_insert_code]
      simp
    · rw [dataOf_insert_code]
      exact h.dataCompleteAt

theorem Tracks.setsThreshold_iff (h : Tracks A state) (hx : x.position = q) (t : UInt64) :
    state.SetsThreshold x t ↔ Due A q := by
  have hseen : state.seen x = false ↔ q ∉ A := by
    rw [seen_eq state hx, ← h.seen q, Bool.not_eq_true]
  rw [SetsThreshold, hseen]
  constructor
  · intro ⟨hq, hat⟩
    have h' := h.arrived hx hq t
    rw [atThreshold, decide_eq_true_eq, h'.arrivals, h'.firstCodeAt] at hat
    exact ⟨hq, hat.1, hat.2⟩
  · intro hdue
    have h' := h.arrived hx hdue.fresh t
    refine ⟨hdue.fresh, ?_⟩
    rw [atThreshold, decide_eq_true_eq, h'.arrivals, h'.firstCodeAt]
    exact ⟨hdue.card, hdue.code⟩

theorem arrive_keeps (state : SetState) (x : Shred) (t : UInt64) :
    ((state.markSeen x).arrive x t).thresholdAt = state.thresholdAt ∧
      ((state.markSeen x).arrive x t).missingAtThreshold = state.missingAtThreshold := by
  cases hx : x.position with
  | data p =>
    rw [arrive_data hx]
    exact ⟨rfl, rfl⟩
  | code p =>
    rw [arrive_code hx]
    exact ⟨rfl, rfl⟩

theorem update_sets (h : state.SetsThreshold x t) : (state.update x t).thresholdAt = some t ∧
    (state.update x t).missingAtThreshold = 32 - (state.update x t).numData := by
  obtain ⟨hseen, hat⟩ := h
  have hnot : ¬ state.seen x = true := by simp [hseen]
  rw [update, if_neg hnot]
  dsimp only
  rw [if_pos hat]
  exact ⟨rfl, rfl⟩

/-- The threshold and what was missing there change only where they are assigned. -/
theorem update_keeps (h : ¬ state.SetsThreshold x t) : (state.update x t).thresholdAt = state.thresholdAt ∧
    (state.update x t).missingAtThreshold = state.missingAtThreshold := by
  rw [update]
  split
  · exact ⟨rfl, rfl⟩
  · rename_i hseen
    dsimp only
    split
    · rename_i hat
      exact absurd ⟨by simpa using hseen, hat⟩ h
    · exact arrive_keeps state x t

theorem Tracks.update (h : Tracks A state) (hx : x.position = q) (t : UInt64) :
    Tracks (insert q A) (state.update x t) := by
  by_cases hq : q ∈ A
  · have hseen : state.seen x = true := by rw [seen_eq state hx, h.seen q]; exact hq
    rw [SetState.update, if_pos hseen, Finset.insert_eq_of_mem hq]
    exact h
  · have hseen : ¬ state.seen x = true := by rwa [seen_eq state hx, h.seen q]
    have h' := h.arrived hx hq t
    rw [SetState.update, if_neg hseen]
    dsimp only
    split
    · exact ⟨h'.seen, h'.arrivals, h'.numData, h'.firstCodeAt, h'.dataCompleteAt⟩
    · exact h'

end SetState

/-! ### Recovery as soon as it is possible -/

namespace FecSet
variable [Hasher]

/-- `insert`, then `recover` if the set can; a recovery that fails ends the run. -/
def eagerStep (rs : ReedSolomon) (set : FecSet) (shred : Shred) :
    Except (Panic ⊕ RecoverError) (FecSet × List (List ℕ)) :=
  let set := (set.insert shred).1
  if set.canRecover then
    match set.recover rs with
    | .error panic => .error (.inl panic)
    | .ok (_, .error e) => .error (.inr e)
    | .ok (set, .ok indexes) => .ok (set, [indexes])
  else .ok (set, [])

/-- All shreds, and what each recovery returned. -/
def eagerAll (rs : ReedSolomon) (shreds : List Shred) : Except (Panic ⊕ RecoverError) (FecSet × List (List ℕ)) :=
  Steps.runAll (eagerStep rs) FecSet.empty shreds

/-- The set can be recovered when the shred is in. -/
def RecoverableAt (set : FecSet) (shred : Shred) : Prop := (set.insert shred).1.canRecover = true

variable {rs : ReedSolomon} {set set' : FecSet} {x : Shred} {out : List (List ℕ)} {f : ℕ}

theorem eagerStep_ok (h : eagerStep rs set x = .ok (set', out)) :
    (¬ set.RecoverableAt x ∧ set' = (set.insert x).1 ∧ out = []) ∨
    (set.RecoverableAt x ∧ ∃ indexes, (set.insert x).1.recover rs = .ok (set', .ok indexes) ∧ out = [indexes]) := by
  unfold eagerStep at h
  dsimp only at h
  split at h
  · rename_i hcan
    right
    split at h
    · contradiction
    · contradiction
    · rename_i set'' indexes hrec
      cases h
      exact ⟨hcan, indexes, hrec, rfl⟩
  · rename_i hcan
    left
    cases h
    exact ⟨hcan, rfl, rfl⟩

theorem eagerStep_idle (h : ¬ set.RecoverableAt x) : eagerStep rs set x = .ok ((set.insert x).1, []) := if_neg h

theorem eagerStep_fires (h : set.RecoverableAt x) {indexes : List ℕ}
    (hrec : (set.insert x).1.recover rs = .ok (set', .ok indexes)) : eagerStep rs set x = .ok (set', [indexes]) := by
  have hstep : eagerStep rs set x = _ := if_pos h
  rw [hstep, hrec]

/-- What was put out tells whether a recovery ran. -/
theorem occurs_iff_outs {shreds : List Shred} {outs : List (List ℕ)} (h : eagerAll rs shreds = .ok (set, outs)) :
    Steps.Occurs (eagerStep rs) FecSet.empty RecoverableAt shreds ↔ outs ≠ [] := by
  refine Steps.runAll_induct (P := fun is _ os => Steps.Occurs (eagerStep rs) FecSet.empty RecoverableAt is ↔ os ≠ [])
    ?_ ?_ h
  · exact iff_of_false Steps.not_occurs_nil (fun hne => hne rfl)
  · intro is set os x set' out hrun ih hstep
    rw [Steps.occurs_snoc hrun, ih]
    rcases eagerStep_ok hstep with ⟨hnot, _, rfl⟩ | ⟨hcan, indexes, _, rfl⟩
    · simp [hnot]
    · simp [hcan]

theorem insert_complete (hI : Inv f set) (hc : set.isComplete = true) (x : Shred) : (set.insert x).1 = set := by
  cases hx : x.position with
  | data p =>
    apply insert_of_held
    rw [get_eq, hx]
    exact hI.toPlaced.isComplete_iff.mp hc p
  | code p =>
    apply insert_unchanged
    rw [Ne, insert_new_iff]
    rintro ⟨root, hacc⟩
    have hneeded := hacc.needed (x.position_code hx).1
    rw [hc] at hneeded
    contradiction

end FecSet

/-! ### One set of a leader -/

namespace LeaderSet
open FecSet
variable [Hasher] {S : LeaderSet} {f : ℕ} {root : Hash32} {signature : Signature} {A : Finset Position}
  {set set' : FecSet} {outs out : List (List ℕ)} {rs : ReedSolomon} {q : Position}

omit [Hasher] in
theorem Arrived.canRecover_iff (h : S.Arrived f root signature A set) :
    set.canRecover = true ↔ 32 ≤ A.card ∧ (dataOf A).card < 32 := by
  by_cases hall : (dataOf A).card < 32
  · obtain ⟨p, hp⟩ := dataOf_missing hall
    rw [(h.waiting p hp).canRecover_iff h.inv hp]
    exact (and_iff_left hall).symm
  · have hle := dataOf_card_le A
    have hcomp := h.full (dataOf_full.mp (by omega))
    simp [canRecover, hcomp, hall]

theorem Arrived.insert_any (h : S.Arrived f root signature A set) (hS : S.Sealed f root signature q)
    (hlt : A.card < 32) : S.Arrived f root signature (Insert.insert q A) (set.insert (S.shred q)).1 := by
  by_cases hq : q ∈ A
  · obtain ⟨p, hp⟩ := dataOf_missing_of_card hlt
    have hheld : (set.get (S.shred q)).isSome = true := by
      rw [get_eq, hS.position, (h.waiting p hp).held, if_pos hq]
      rfl
    rw [insert_of_held hheld, Finset.insert_eq_of_mem hq]
    exact h
  · exact h.insert hS hq

/-- A set that is recovered as soon as it can be. -/
structure Recovering (S : LeaderSet) (f : ℕ) (root : Hash32) (signature : Signature) (A : Finset Position)
    (set : FecSet) (outs : List (List ℕ)) : Prop where
  inv : Inv f set
  waiting : A.card < 32 → S.Arrived f root signature A set ∧ outs = []
  done : 32 ≤ A.card → set.isComplete = true ∧ (outs = [] → (dataOf A).card = 32)

omit [Hasher] in
theorem Recovering.empty : S.Recovering f root signature ∅ FecSet.empty [] where
  inv := Inv.empty f
  waiting _ := ⟨Arrived.empty, rfl⟩
  done h := by simp at h

theorem Recovering.recoverable_iff (h : S.Recovering f root signature A set outs) (hS : S.Sealed f root signature q) :
    set.RecoverableAt (S.shred q) ↔ Due A q := by
  rw [RecoverableAt]
  by_cases hlt : A.card < 32
  · have harr := (h.waiting hlt).1.insert_any hS hlt
    rw [harr.canRecover_iff]
    by_cases hq : q ∈ A
    · rw [Finset.insert_eq_of_mem hq]
      exact iff_of_false (fun hcan => absurd hcan.1 (Nat.not_le.mpr hlt)) (fun hdue => hdue.fresh hq)
    · have hcard := Finset.card_insert_of_notMem hq
      rw [due_iff hq]
      omega
  · have hcomp := (h.done (Nat.not_lt.mp hlt)).1
    rw [insert_complete h.inv hcomp]
    exact iff_of_false (by simp [canRecover, hcomp]) (fun hdue => hlt hdue.card_lt)

theorem Recovering.idle (h : S.Recovering f root signature A set outs) (hS : S.Sealed f root signature q)
    (hnot : ¬ Due A q) : S.Recovering f root signature (Insert.insert q A) (set.insert (S.shred q)).1 outs := by
  by_cases hlt : A.card < 32
  · obtain ⟨harr, houts⟩ := h.waiting hlt
    have harr' := harr.insert_any hS hlt
    refine ⟨harr'.inv, fun _ => ⟨harr', houts⟩, fun hge => ?_⟩
    have hq : q ∉ A := by
      intro hq
      rw [Finset.insert_eq_of_mem hq] at hge
      omega
    rw [due_iff hq] at hnot
    have hcard := Finset.card_insert_of_notMem hq
    have hle := dataOf_card_le (Insert.insert q A)
    -- the 32nd shred, and no code shred among them
    have hfull : (dataOf (Insert.insert q A)).card = 32 := by omega
    exact ⟨harr'.full (dataOf_full.mp hfull), fun _ => hfull⟩
  · obtain ⟨hcomp, hdata⟩ := h.done (Nat.not_lt.mp hlt)
    have hmono := Finset.card_le_card (Finset.subset_insert q A)
    rw [insert_complete h.inv hcomp]
    refine ⟨h.inv, fun hlt' => by omega, fun _ => ⟨hcomp, fun hnil => ?_⟩⟩
    have hall := dataOf_full.mp (hdata hnil)
    exact dataOf_full.mpr fun p => Finset.mem_insert_of_mem (hall p)

theorem Recovering.fires (h : S.Recovering f root signature A set outs) (hS : S.Sealed f root signature q)
    (hdue : Due A q) {indexes : List ℕ}
    (hrec : (set.insert (S.shred q)).1.recover rs = .ok (set', .ok indexes)) :
    outs = [] ∧ indexes.length + (dataOf (Insert.insert q A)).card = 32 ∧
      S.Recovering f root signature (Insert.insert q A) set' (outs ++ [indexes]) := by
  obtain ⟨harr, houts⟩ := h.waiting hdue.card_lt
  have harr' := harr.insert_any hS hdue.card_lt
  have hcan := (h.recoverable_iff hS).mpr hdue
  obtain ⟨set'', r, hok, hr⟩ := recover_cases harr'.inv hcan rs
  obtain ⟨rfl, rfl⟩ := Prod.mk.inj (Except.ok.inj (hrec.symm.trans hok))
  obtain ⟨rfl, hfull, _⟩ := hr.ok
  have hI := hr.inv harr'.inv
  obtain ⟨p, hp⟩ := dataOf_missing ((due_iff hdue.fresh).mp hdue).2
  refine ⟨houts, ?_, hI, fun hlt => ?_, fun _ => ⟨hI.toPlaced.isComplete_iff.mpr hfull, fun hnil => ?_⟩⟩
  · rw [List.length_map, ← (harr'.waiting p hp).data_count harr'.inv]
    exact harr'.inv.toPlaced.missing_length
  · have hcard := hdue.card
    omega
  · simp at hnil

/-! ### Side by side -/

/-- The analysis and the library after the shreds at the places `A`. -/
structure Agree (S : LeaderSet) (f : ℕ) (root : Hash32) (signature : Signature) (A : Finset Position)
    (state : SetState) (set : FecSet) (outs : List (List ℕ)) : Prop where
  tracks : SetState.Tracks A state
  recovering : S.Recovering f root signature A set outs
  threshold : state.thresholdAt = none ↔ outs = []
  missing : state.thresholdAt ≠ none →
    1 ≤ state.missingAtThreshold ∧ ∃ indexes, outs = [indexes] ∧ state.missingAtThreshold = indexes.length

variable {state : SetState}

omit [Hasher] in
theorem Agree.empty : S.Agree f root signature ∅ SetState.empty FecSet.empty [] where
  tracks := SetState.Tracks.empty
  recovering := Recovering.empty
  threshold := iff_of_true rfl rfl
  missing h := absurd rfl h

theorem Agree.step (h : S.Agree f root signature A state set outs) (hS : S.Sealed f root signature q) (t : UInt64)
    (hstep : eagerStep rs set (S.shred q) = .ok (set', out)) :
    S.Agree f root signature (Insert.insert q A) (state.update (S.shred q) t) set' (outs ++ out) := by
  have htracks := h.tracks.update hS.position t
  have hsets := h.tracks.setsThreshold_iff hS.position t
  have hrecoverable := h.recovering.recoverable_iff hS
  rcases eagerStep_ok hstep with ⟨hnot, rfl, rfl⟩ | ⟨hcan, indexes, hrec, rfl⟩
  · rw [hrecoverable] at hnot
    obtain ⟨hthreshold, hmissing⟩ := SetState.update_keeps (mt hsets.mp hnot)
    rw [List.append_nil]
    refine ⟨htracks, h.recovering.idle hS hnot, ?_, ?_⟩
    · rw [hthreshold]
      exact h.threshold
    · rw [hthreshold, hmissing]
      exact h.missing
  · have hdue := hrecoverable.mp hcan
    obtain ⟨hthreshold, hmissing⟩ := SetState.update_sets (hsets.mpr hdue)
    obtain ⟨rfl, hlen, hrecovering⟩ := h.recovering.fires hS hdue hrec
    have hdata := ((due_iff hdue.fresh).mp hdue).2
    rw [htracks.numData] at hmissing
    refine ⟨htracks, hrecovering, ?_, fun _ => ⟨?_, indexes, rfl, ?_⟩⟩
    · simp [hthreshold]
    · omega
    · omega

/- The shreds of `S` as they come in, each with its time. -/
def sent (S : LeaderSet) (order : List (Position × UInt64)) : List (Shred × UInt64) :=
  order.map fun x => (S.shred x.1, x.2)

abbrev sentShreds (S : LeaderSet) (order : List (Position × UInt64)) : List Shred := (S.sent order).map Prod.fst

omit [Hasher] in
theorem sent_snoc (S : LeaderSet) (order : List (Position × UInt64)) (q : Position) (t : UInt64) :
    S.sent (order ++ [(q, t)]) = S.sent order ++ [(S.shred q, t)] := List.map_append

def places (order : List (Position × UInt64)) : Finset Position := (order.map Prod.fst).toFinset

omit [Hasher] in
theorem places_snoc (order : List (Position × UInt64)) (q : Position) (t : UInt64) :
    places (order ++ [(q, t)]) = Insert.insert q (places order) := by
  ext r
  simp [places]

theorem agree_run (hS : ∀ q, S.Sealed f root signature q) {order : List (Position × UInt64)}
    (h : eagerAll rs (S.sentShreds order) = .ok (set, outs)) :
    S.Agree f root signature (places order) (SetState.measured (S.sent order)) set outs := by
  induction order using List.reverseRecOn generalizing set outs with
  | nil =>
    cases h
    exact Agree.empty
  | append_singleton order x ih =>
    obtain ⟨q, t⟩ := x
    rw [sentShreds, sent_snoc, List.map_append] at h
    obtain ⟨set₁, outs₁, out, hrun, hstep, rfl⟩ := Steps.runAll_snoc_ok.mp h
    rw [sent_snoc, SetState.measured_snoc, places_snoc]
    exact (ih hrun).step (hS q) t hstep

/-- What the analysis says about the shreds `order` is what the library did with them. -/
structure Measures (S : LeaderSet) (rs : ReedSolomon) (order : List (Position × UInt64)) (set : FecSet)
    (outs : List (List ℕ)) : Prop where
  /- The threshold is set at the shred whose insert makes recovery possible for the first time. -/
  threshold : ∀ before q t after, order = before ++ (q, t) :: after →
    ∃ set outs, eagerAll rs (S.sentShreds before) = .ok (set, outs) ∧
      ((SetState.measured (S.sent before)).SetsThreshold (S.shred q) t ↔ set.RecoverableAt (S.shred q) ∧
        ¬ Steps.Occurs (eagerStep rs) FecSet.empty RecoverableAt (S.sentShreds before))
  assigned : ∀ before q t after, order = before ++ (q, t) :: after →
    (SetState.measured (S.sent (before ++ [(q, t)]))).thresholdAt =
      if (SetState.measured (S.sent before)).SetsThreshold (S.shred q) t then some t
      else (SetState.measured (S.sent before)).thresholdAt
  once : ∀ before q t between q' t' after, order = before ++ (q, t) :: (between ++ (q', t') :: after) →
    (SetState.measured (S.sent before)).SetsThreshold (S.shred q) t →
    ¬ (SetState.measured (S.sent (before ++ (q, t) :: between))).SetsThreshold (S.shred q') t'
  missing : (SetState.measured (S.sent order)).thresholdAt ≠ none →
    1 ≤ (SetState.measured (S.sent order)).missingAtThreshold ∧
      ∃ indexes, outs = [indexes] ∧ (SetState.measured (S.sent order)).missingAtThreshold = indexes.length
  dataFirst : ((SetState.measured (S.sent order)).dataCompleteAt ≠ none ∧
    (SetState.measured (S.sent order)).thresholdAt = none) ↔ set.isComplete = true ∧ outs = []

/- The run up to some shred, and that shred. -/
theorem agree_before (hS : ∀ q, S.Sealed f root signature q) {order before after : List (Position × UInt64)}
    (h : eagerAll rs (S.sentShreds order) = .ok (set, outs)) (heq : order = before ++ after) :
    ∃ set outs, eagerAll rs (S.sentShreds before) = .ok (set, outs) ∧
      S.Agree f root signature (places before) (SetState.measured (S.sent before)) set outs := by
  have hsent : S.sentShreds order = S.sentShreds before ++ S.sentShreds after := by
    rw [heq, sentShreds, sent, List.map_append, List.map_append]
    rfl
  rw [hsent] at h
  obtain ⟨set₁, outs₁, outs₂, hrun, _, _⟩ := Steps.runAll_append_ok.mp h
  exact ⟨set₁, outs₁, hrun, agree_run hS hrun⟩

theorem Agree.setsThreshold_iff (h : S.Agree f root signature A state set outs) (hS : S.Sealed f root signature q)
    (t : UInt64) {shreds : List Shred} (hrun : eagerAll rs shreds = .ok (set, outs)) :
    state.SetsThreshold (S.shred q) t ↔ set.RecoverableAt (S.shred q) ∧
      ¬ Steps.Occurs (eagerStep rs) FecSet.empty RecoverableAt shreds := by
  rw [h.tracks.setsThreshold_iff hS.position t, h.recovering.recoverable_iff hS, occurs_iff_outs hrun, not_not]
  constructor
  · intro hdue
    exact ⟨hdue, (h.recovering.waiting hdue.card_lt).2⟩
  · exact fun hdue => hdue.1

omit [Hasher] in
theorem Agree.dataFirst_iff (h : S.Agree f root signature A state set outs) :
    (state.dataCompleteAt ≠ none ∧ state.thresholdAt = none) ↔ set.isComplete = true ∧ outs = [] := by
  rw [h.threshold, ← Option.isSome_iff_ne_none, h.tracks.dataCompleteAt, and_congr_left_iff]
  intro houts
  have hsplit := card_split A
  constructor
  · intro hdata
    exact (h.recovering.done (by omega)).1
  · intro hcomp
    refine (h.recovering.done ?_).2 houts
    by_contra hlt
    obtain ⟨p, hp⟩ := dataOf_missing_of_card (Nat.not_le.mp hlt)
    have hhold := (h.recovering.waiting (Nat.not_le.mp hlt)).1.waiting p hp
    rw [hhold.not_complete h.recovering.inv hp] at hcomp
    contradiction

/-- The class the analysis gives a set says what the library did with it. -/
def Tells (set : FecSet) (outs : List (List ℕ)) : SetState.Class → Prop
  | .dataFirst => set.isComplete = true ∧ outs = []
  | .window _ missing => ∃ indexes, outs = [indexes] ∧ missing = indexes.length
  | .neverComplete => outs ≠ []
  | .neverRecoverable => set.isComplete = false

omit [Hasher] in
theorem Agree.classify (h : S.Agree f root signature A state set outs) : Tells set outs state.classify := by
  have hfirst := h.dataFirst_iff
  unfold SetState.classify
  cases hthreshold : state.thresholdAt with
  | none =>
    cases hdata : state.dataCompleteAt with
    | none =>
      -- complete without a recovery would have been noticed
      show set.isComplete = false
      rw [← Bool.not_eq_true]
      intro hcomp
      exact (hfirst.mpr ⟨hcomp, h.threshold.mp hthreshold⟩).1 hdata
    | some complete => exact hfirst.mp ⟨by simp [hdata], hthreshold⟩
  | some threshold =>
    obtain ⟨hpos, indexes, houts, hlen⟩ := h.missing (by simp [hthreshold])
    cases state.dataCompleteAt with
    | none =>
      show outs ≠ []
      simp [houts]
    | some complete =>
      dsimp only
      rw [if_neg (Nat.one_le_iff_ne_zero.mp hpos)]
      exact ⟨indexes, houts, hlen⟩

/-- In a whole capture, too. -/
theorem replay_classified (hS : ∀ q, S.Sealed f root signature q) {records : List Fixture.Record} {key : ℕ × ℕ}
    {order : List (Position × UInt64)} (harr : records.filterMap (Sets.arrival key) = S.sent order) (hne : order ≠ [])
    (h : eagerAll rs (S.sentShreds order) = .ok (set, outs)) :
    ∃ state, Sets.replay records key = some state ∧ Tells set outs state.classify := by
  obtain ⟨x, rest, rfl⟩ := List.exists_cons_of_ne_nil hne
  refine ⟨_, ?_, (agree_run hS h).classify⟩
  rw [Sets.replay_apply, harr]
  rfl

/-- Over any of the shreds of one set, in any order and with repeats. -/
theorem analysis_measures (hS : ∀ q, S.Sealed f root signature q) (rs : ReedSolomon)
    (order : List (Position × UInt64)) (h : eagerAll rs (S.sentShreds order) = .ok (set, outs)) :
    S.Measures rs order set outs where
  threshold := by
    intro before q t after heq
    obtain ⟨set₁, outs₁, hrun, hagree⟩ := agree_before hS h heq
    exact ⟨set₁, outs₁, hrun, hagree.setsThreshold_iff (hS q) t hrun⟩
  assigned := by
    intro before q t after _
    rw [sent_snoc, SetState.measured_snoc]
    split
    · rename_i hsets
      exact (SetState.update_sets hsets).1
    · rename_i hsets
      exact (SetState.update_keeps hsets).1
  once := by
    intro before q t between q' t' after heq hsets hsets'
    obtain ⟨_, _, _, hagree⟩ := agree_before hS h heq
    have heq' : order = (before ++ (q, t) :: between) ++ (q', t') :: after := by simpa using heq
    obtain ⟨_, _, _, hagree'⟩ := agree_before hS h heq'
    have hdue := (hagree.tracks.setsThreshold_iff (hS q).position t).mp hsets
    have hdue' := (hagree'.tracks.setsThreshold_iff (hS q').position t').mp hsets'
    -- the 32 places of the first time are all there before the second
    have hsub : Insert.insert q (places before) ⊆ places (before ++ (q, t) :: between) := by
      intro r hr
      simp only [places, List.map_append, List.map_cons, List.toFinset_append, List.toFinset_cons,
        Finset.mem_union, Finset.mem_insert] at hr ⊢
      rcases hr with hr | hr
      · exact .inr (.inl hr)
      · exact .inl hr
    have hle := Finset.card_le_card hsub
    rw [hdue.card] at hle
    exact absurd hdue'.card_lt (Nat.not_lt.mpr hle)
  missing := (agree_run hS h).missing
  dataFirst := (agree_run hS h).dataFirst_iff

/-! ### Nothing else stops the library -/

theorem recovering_total {Codeword : List Bytes → Prop} {slot version : ℕ} (hS : S.Consistent Codeword slot version f)
    (hrs : rs.Rebuilds Codeword) (hroot : ∀ q, S.Sealed f root (S.data 0).signature q)
    (h : S.Recovering f root (S.data 0).signature A set outs) (q : Position) :
    ∃ set' out, eagerStep rs set (S.shred q) = .ok (set', out) ∧
      S.Recovering f root (S.data 0).signature (Insert.insert q A) set' (outs ++ out) := by
  have hiff := h.recoverable_iff (hroot q)
  by_cases hdue : Due A q
  · have harr := (h.waiting hdue.card_lt).1.insert_any (hroot q) hdue.card_lt
    obtain ⟨p, hp⟩ := dataOf_missing ((due_iff hdue.fresh).mp hdue).2
    obtain ⟨set', hrec, _⟩ := (harr.waiting p hp).recover hS harr.inv hrs (hiff.mpr hdue)
    exact ⟨set', _, eagerStep_fires (hiff.mpr hdue) hrec, (h.fires (hroot q) hdue hrec).2.2⟩
  · refine ⟨_, _, eagerStep_idle (mt hiff.mp hdue), ?_⟩
    rw [List.append_nil]
    exact h.idle (hroot q) hdue

/-- With a decoder that rebuilds codewords no recovery fails. -/
theorem eagerAll_returns {Codeword : List Bytes → Prop} {slot version : ℕ} (hS : S.Consistent Codeword slot version f)
    (hrs : rs.Rebuilds Codeword) (order : List (Position × UInt64)) :
    ∃ set outs, eagerAll rs (S.sentShreds order) = .ok (set, outs) := by
  obtain ⟨root, hroot⟩ := hS.sealed
  have hof : ∀ x ∈ S.sentShreds order, ∃ q, x = S.shred q := by
    intro x hx
    simp only [sentShreds, sent, List.map_map, List.mem_map] at hx
    obtain ⟨y, _, rfl⟩ := hx
    exact ⟨y.1, rfl⟩
  have hnext : ∀ set x, (∃ A outs, S.Recovering f root (S.data 0).signature A set outs) → (∃ q, x = S.shred q) →
      ∃ set' out, eagerStep rs set x = .ok (set', out) ∧
        ∃ A outs, S.Recovering f root (S.data 0).signature A set' outs := by
    rintro set _ ⟨A, outs, h⟩ ⟨q, rfl⟩
    obtain ⟨set', out, hstep, h'⟩ := recovering_total hS hrs hroot h q
    exact ⟨set', out, hstep, _, _, h'⟩
  obtain ⟨set, outs, hrun, _⟩ := Steps.runAll_total ⟨∅, [], Recovering.empty⟩ hnext (S.sentShreds order) hof
  exact ⟨set, outs, hrun⟩

end LeaderSet

/-- Half of the data shreds and half of the code shreds, then all of them again. -/
theorem analysis_measures_line :
    let S := @lineSet sha256Hasher 9 (by decide)
    let rs := ReedSolomon.table (lineCodeword 9 fun _ => 0)
    let order := (halfOrder ++ halfOrder).map fun q => (q, 7)
    ∃ set outs, @FecSet.eagerAll sha256Hasher rs (S.sentShreds order) = .ok (set, outs) ∧
      @LeaderSet.Measures sha256Hasher S rs order set outs := by
  intro S rs order
  have hS := @lineSet_consistent sha256Hasher 9 (by decide)
  obtain ⟨root, hroot⟩ := @LeaderSet.Consistent.sealed sha256Hasher _ _ _ _ _ hS
  obtain ⟨set, outs, hrun⟩ := @LeaderSet.eagerAll_returns sha256Hasher _ _ _ _ _ _ hS
    (ReedSolomon.table_rebuilds (lineCodeword_length ..)) order
  exact ⟨set, outs, hrun, @LeaderSet.analysis_measures sha256Hasher S 0 root _ set outs hroot rs order hrun⟩

end Deshred
