import Deshred.Measures

/-!
# The gap that is measured (bin/analyze-recovery.rs)

On any capture, of leaders or not, the class of a set and the wait reported for it follow
from its first arrivals, one for each erasure position: the 32nd of them against the 32nd
data shred.
-/

namespace Deshred

def Position.isCode : Position → Bool
  | .data _ => false
  | .code _ => true

/- Places and the times at which they were filled. -/
abbrev Filled := List (Position × UInt64)

namespace Filled

def hasCode (l : Filled) : Bool := l.any fun x => x.1.isCode

def data (l : Filled) : Filled := l.filter fun x => !x.1.isCode

def numCode (l : Filled) : ℕ := l.countP fun x => x.1.isCode

/- A place is filled once. -/
def note (l : Filled) (x : Shred × UInt64) : Filled :=
  if x.1.position ∈ l.map Prod.fst then l else l ++ [(x.1.position, x.2)]

variable {l : Filled} {x : Position × UInt64}

theorem data_add_code (l : Filled) : l.data.length + l.numCode = l.length := by
  have hsplit := List.length_eq_countP_add_countP (fun x : Position × UInt64 => x.1.isCode) (l := l)
  have hdata : l.data.length = l.countP fun x => ¬ x.1.isCode := by
    rw [data, ← List.countP_eq_length_filter]
    simp
  rw [hdata, numCode]
  omega

theorem hasCode_iff : l.hasCode = true ↔ 0 < l.numCode := by
  rw [hasCode, numCode, List.any_eq_true, List.countP_pos_iff]

/- The time of the 32nd place, if there is a code shred among the first 32. -/
def threshold (l : Filled) : Option UInt64 := if hasCode (l.take 32) then l[31]?.map Prod.snd else none

theorem threshold_of_lt (h : l.length < 32) : l.threshold = none := by
  rw [threshold, List.getElem?_eq_none (Nat.le_of_lt_succ h)]
  split
  · rfl
  · rfl

theorem threshold_at (hlen : (l ++ [x]).length = 32) (hcode : hasCode (l ++ [x]) = true) :
    threshold (l ++ [x]) = some x.2 := by
  have hlast : l.length = 31 := by simpa using hlen
  rw [threshold, List.take_of_length_le hlen.le, if_pos hcode, ← hlast, List.getElem?_concat_length]
  rfl

/-- Only the 32nd place sets the threshold, once and for all. -/
theorem threshold_snoc (h : ¬ ((l ++ [x]).length = 32 ∧ hasCode (l ++ [x]) = true)) :
    threshold (l ++ [x]) = threshold l ∧ ((threshold l).isSome = true → (l ++ [x]).take 32 = l.take 32) := by
  have hlen : (l ++ [x]).length = l.length + 1 := by rw [List.length_append, List.length_singleton]
  rcases Nat.lt_or_ge l.length 32 with hlt | hge
  · rw [threshold_of_lt hlt]
    refine ⟨?_, fun hsome => by cases hsome⟩
    rcases Nat.lt_or_ge (l ++ [x]).length 32 with hlt' | hge'
    · exact threshold_of_lt hlt'
    · have h32 : (l ++ [x]).length = 32 := by omega
      rw [threshold, List.take_of_length_le h32.le, if_neg fun hcode => h ⟨h32, hcode⟩]
  · have htake : (l ++ [x]).take 32 = l.take 32 := List.take_append_of_le_length hge
    rw [threshold, threshold, htake, List.getElem?_append_left hge]
    exact ⟨rfl, fun _ => rfl⟩

/-- The class as the tool's description has it: recovery has a window once 32 places are
filled, one of them with a code shred, and waits from then on for the 32nd data shred. -/
def classOf (l : Filled) : SetState.Class :=
  match l[31]? with
  | none => .neverRecoverable
  | some threshold =>
    if hasCode (l.take 32) = false then .dataFirst
    else match l.data[31]? with
      | none => .neverComplete
      | some complete => .window ((complete.2.toNat - threshold.2.toNat) / 1000) (32 - (data (l.take 32)).length)

theorem data_length_of_no_code (h : 32 ≤ l.length) (hcode : hasCode (l.take 32) = false) : 32 ≤ l.data.length := by
  have hsplit := data_add_code (l.take 32)
  have hnum : numCode (l.take 32) = 0 := by
    rw [← Nat.le_zero, ← Nat.not_lt, ← hasCode_iff, hcode]
    exact Bool.false_ne_true
  have hsub : (data (l.take 32)).Sublist l.data := (List.take_sublist 32 l).filter _
  have hle := hsub.length_le
  rw [List.length_take] at hsplit
  omega

theorem classOf_of_none (hthreshold : l.threshold = none) (hdata : l.data[31]? = none) : l.classOf = .neverRecoverable := by
  have hshort : l.data.length ≤ 31 := List.getElem?_eq_none_iff.mp hdata
  cases hlast : l[31]? with
  | none => rw [classOf, hlast]
  | some x =>
    have hlen : 31 < l.length := (List.getElem?_eq_some_iff.mp hlast).1
    rw [threshold, hlast] at hthreshold
    split at hthreshold
    · cases hthreshold
    · rename_i hcode
      have hle := data_length_of_no_code hlen (Bool.not_eq_true _ ▸ hcode)
      omega

theorem classOf_of_data (hthreshold : l.threshold = none) {complete : Position × UInt64} (hdata : l.data[31]? = some complete) :
    l.classOf = .dataFirst := by
  have hlong : 31 < l.data.length := (List.getElem?_eq_some_iff.mp hdata).1
  have hsplit := l.data_add_code
  have hlast : l[31]? = some l[31] := List.getElem?_eq_getElem (by omega)
  rw [threshold, hlast] at hthreshold
  split at hthreshold
  · cases hthreshold
  · rename_i hcode
    rw [classOf, hlast]
    exact if_pos (Bool.not_eq_true _ ▸ hcode)

/- The code shreds among the first 32 stand in for the data shreds that are missing. -/
theorem missing_eq (h : 31 < l.length) : 32 - (data (l.take 32)).length = numCode (l.take 32) := by
  have hsplit := data_add_code (l.take 32)
  rw [List.length_take] at hsplit
  omega

theorem classOf_of_threshold {t : UInt64} (hthreshold : l.threshold = some t) : l.classOf = match l.data[31]? with
    | none => .neverComplete
    | some complete => .window ((complete.2.toNat - t.toNat) / 1000) (numCode (l.take 32)) := by
  rw [threshold] at hthreshold
  split at hthreshold
  · rename_i hcode
    obtain ⟨x, hlast, rfl⟩ := Option.map_eq_some_iff.mp hthreshold
    have hlen : 31 < l.length := (List.getElem?_eq_some_iff.mp hlast).1
    rw [classOf, hlast]
    dsimp only
    rw [if_neg (by simp [hcode]), missing_eq hlen]
  · cases hthreshold

end Filled

/-- The first arrival at each position, in the order of the capture. -/
def firsts (arrived : List (Shred × UInt64)) : Filled := arrived.foldl Filled.note []

namespace SetState
variable {l : Filled} {state : SetState} {x : Shred} {q : Position} {t : UInt64}

/- The counters and times, but for those of the threshold. -/
structure Counted (l : Filled) (state : SetState) : Prop where
  seen : ∀ q, state.seenAt q = true ↔ q ∈ l.map Prod.fst
  arrivals : state.arrivals = l.map Prod.snd
  numData : state.numData = l.data.length
  firstCodeAt : state.firstCodeAt.isSome = l.hasCode
  dataCompleteAt : state.dataCompleteAt = l.data[31]?.map Prod.snd

structure Noted (l : Filled) (state : SetState) : Prop extends Counted l state where
  thresholdAt : state.thresholdAt = l.threshold
  missing : state.thresholdAt.isSome = true → state.missingAtThreshold = Filled.numCode (l.take 32)

theorem Noted.empty : Noted [] SetState.empty where
  seen q := by cases q <;> simp [seenAt, SetState.empty]
  arrivals := rfl
  numData := rfl
  firstCodeAt := rfl
  dataCompleteAt := rfl
  thresholdAt := rfl
  missing h := by cases h

theorem Counted.arrived (h : Counted l state) (hx : x.position = q) (t : UInt64) :
    Counted (l ++ [(q, t)]) ((state.markSeen x).arrive x t) := by
  have hseen : ∀ r, ((state.markSeen x).arrive x t).seenAt r = true ↔ r ∈ (l ++ [(q, t)]).map Prod.fst := by
    intro r
    rw [seenAt_arrive hx, h.seen, List.map_append, List.mem_append, or_comm]
    simp
  have harrivals : state.arrivals ++ [t] = (l ++ [(q, t)]).map Prod.snd := by
    rw [List.map_append, h.arrivals]
    rfl
  cases q with
  | data p =>
    have hdata : Filled.data (l ++ [(.data p, t)]) = l.data ++ [(.data p, t)] := List.filter_append ..
    rw [arrive_data hx] at hseen ⊢
    refine ⟨hseen, harrivals, ?_, ?_, ?_⟩
    · rw [hdata, List.length_append, h.numData]
      rfl
    · rw [Filled.hasCode, List.any_append]
      exact h.firstCodeAt.trans (Bool.or_false _).symm
    · rw [hdata, h.numData]
      dsimp only
      split
      · rename_i hfull
        have hlen : l.data.length = 31 := Nat.succ.inj hfull
        rw [← hlen, List.getElem?_concat_length]
        rfl
      · rename_i hnot
        rw [h.dataCompleteAt]
        rcases Nat.lt_or_ge 31 l.data.length with hlt | hge
        · rw [List.getElem?_append_left hlt]
        · have hne : l.data.length ≠ 31 := fun heq => hnot (congrArg Nat.succ heq)
          rw [List.getElem?_eq_none hge, List.getElem?_eq_none (by rw [List.length_append, List.length_singleton]; omega)]
  | code p =>
    have hdata : Filled.data (l ++ [(.code p, t)]) = l.data :=
      (List.filter_append ..).trans (List.append_nil _)
    rw [arrive_code hx] at hseen ⊢
    refine ⟨hseen, harrivals, ?_, ?_, ?_⟩
    · rw [hdata]
      exact h.numData
    · rw [Filled.hasCode, List.any_append]
      simp [Position.isCode]
    · rw [hdata]
      exact h.dataCompleteAt

theorem update_unseen (h : state.seen x = false) (t : UInt64) :
    ∃ threshold missing, state.update x t =
      { (state.markSeen x).arrive x t with thresholdAt := threshold, missingAtThreshold := missing } := by
  rw [update, if_neg (by simp [h])]
  dsimp only
  split
  · exact ⟨_, _, rfl⟩
  · exact ⟨_, _, rfl⟩

theorem Counted.setsThreshold_iff (h : Counted l state) (hx : x.position = q) (hq : q ∉ l.map Prod.fst) (t : UInt64) :
    state.SetsThreshold x t ↔ (l ++ [(q, t)]).length = 32 ∧ Filled.hasCode (l ++ [(q, t)]) = true := by
  have hseen : state.seen x = false := by
    rw [seen_eq state hx, ← Bool.not_eq_true, h.seen q]
    exact hq
  have h' := h.arrived hx t
  rw [SetsThreshold, atThreshold, decide_eq_true_eq, h'.arrivals, h'.firstCodeAt, List.length_map, and_iff_right hseen]
  rfl

theorem Noted.update (h : Noted l state) (hx : x.position = q) (t : UInt64) :
    Noted (l.note (x, t)) (state.update x t) := by
  by_cases hq : q ∈ l.map Prod.fst
  · have hseen : state.seen x = true := by rwa [seen_eq state hx, h.seen q]
    rw [Filled.note, if_pos (by rwa [hx]), SetState.update, if_pos hseen]
    exact h
  · have hseen : state.seen x = false := by
      rw [seen_eq state hx, ← Bool.not_eq_true, h.seen q]
      exact hq
    rw [Filled.note, if_neg (by rwa [hx]), hx]
    have h' := h.arrived hx t
    have hcounted : Counted (l ++ [(q, t)]) (state.update x t) := by
      obtain ⟨threshold, missing, heq⟩ := update_unseen hseen t
      rw [heq]
      exact ⟨h'.seen, h'.arrivals, h'.numData, h'.firstCodeAt, h'.dataCompleteAt⟩
    have hiff := h.setsThreshold_iff hx hq t
    by_cases hsets : state.SetsThreshold x t
    · obtain ⟨hthreshold, hmissing⟩ := update_sets hsets
      obtain ⟨hlen, hcode⟩ := hiff.mp hsets
      refine { hcounted with thresholdAt := ?_, missing := fun _ => ?_ }
      · rw [hthreshold, Filled.threshold_at hlen hcode]
      · have hsplit := Filled.data_add_code (l ++ [(q, t)])
        rw [hmissing, hcounted.numData, List.take_of_length_le hlen.le]
        omega
    · obtain ⟨hthreshold, hmissing⟩ := update_keeps hsets
      obtain ⟨hsame, htake⟩ := Filled.threshold_snoc fun hat => hsets (hiff.mpr hat)
      refine { hcounted with thresholdAt := ?_, missing := fun hsome => ?_ }
      · rw [hthreshold, h.thresholdAt, hsame]
      · rw [hthreshold] at hsome
        rw [hmissing, h.missing hsome, htake (by rwa [← h.thresholdAt])]

theorem noted_measured (arrived : List (Shred × UInt64)) : Noted (firsts arrived) (measured arrived) := by
  induction arrived using List.reverseRecOn with
  | nil => exact Noted.empty
  | append_singleton arrived x ih =>
    rw [measured_snoc, firsts, List.foldl_append]
    exact ih.update rfl x.2

/-- What is missing at the threshold is what the code shreds stand in for: never nothing. -/
theorem Noted.missing_pos (h : Noted l state) (hsome : state.thresholdAt.isSome = true) : 0 < state.missingAtThreshold := by
  rw [h.missing hsome, ← Filled.hasCode_iff]
  rw [h.thresholdAt, Filled.threshold] at hsome
  split at hsome
  · assumption
  · cases hsome

theorem Noted.classify (h : Noted l state) : state.classify = l.classOf := by
  rw [SetState.classify, h.dataCompleteAt]
  cases hthreshold : state.thresholdAt with
  | none =>
    rw [h.thresholdAt] at hthreshold
    cases hdata : l.data[31]? with
    | none => exact (Filled.classOf_of_none hthreshold hdata).symm
    | some complete => exact (Filled.classOf_of_data hthreshold hdata).symm
  | some threshold =>
    have hsome : state.thresholdAt.isSome = true := by
      rw [hthreshold]
      rfl
    have hpos := h.missing_pos hsome
    have hmissing := h.missing hsome
    rw [h.thresholdAt] at hthreshold
    rw [Filled.classOf_of_threshold hthreshold, ← hmissing]
    cases l.data[31]? with
    | none => rfl
    | some complete => exact if_neg hpos.ne'

end SetState

theorem firsts_ne_nil {arrived : List (Shred × UInt64)} (h : arrived ≠ []) : firsts arrived ≠ [] := by
  induction arrived using List.reverseRecOn with
  | nil => exact absurd rfl h
  | append_singleton arrived x _ =>
    rw [firsts, List.foldl_append]
    show Filled.note (firsts arrived) x ≠ []
    rw [Filled.note]
    split
    · rename_i hmem
      exact fun heq => by simp [heq] at hmem
    · exact List.append_ne_nil_of_right_ne_nil _ (List.cons_ne_nil _ _)

/-- On any capture the loop of `main` gives each set the class that its first arrivals
have, and a set that reached the threshold lacked data shreds there. -/
theorem sets_classified (records : List Fixture.Record) (key : ℕ × ℕ) :
    let l := firsts (records.filterMap (Sets.arrival key))
    (Sets.replay records key).map SetState.classify = (if l = [] then none else some l.classOf) ∧
      ∀ state, Sets.replay records key = some state → state.thresholdAt.isSome = true → 0 < state.missingAtThreshold := by
  intro l
  rw [Sets.replay_apply]
  cases harr : records.filterMap (Sets.arrival key) with
  | nil =>
    have hl : l = [] := congrArg firsts harr
    rw [if_pos hl]
    exact ⟨rfl, fun _ h => by cases h⟩
  | cons x rest =>
    have hl : l = firsts (x :: rest) := congrArg firsts harr
    have hN := SetState.noted_measured (x :: rest)
    rw [hl, if_neg (firsts_ne_nil (List.cons_ne_nil _ _)), Option.map_some, hN.classify]
    refine ⟨rfl, fun state hstate hsome => ?_⟩
    rw [← Option.some.inj hstate] at hsome ⊢
    exact hN.missing_pos hsome

end Deshred
