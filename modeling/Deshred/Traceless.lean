import Deshred.Delivery
import Deshred.Fates

/-!
# Packets that leave no trace

Duplicates, unneeded code shreds and shreds of another root or signature reach code
that creates slots and sets on demand. They find both there already, so nothing but a
counter changes.
-/

namespace Deshred

namespace SlotState

theorem putSet_same {state : SlotState} {f : ℕ} {set : FecSet} (h : state.sets f = some set) :
    state.putSet f (state.setAt f) = state := by
  have hset : state.setAt f = set := by rw [setAt, h, Option.getD_some]
  rw [putSet, hset, ← h, Function.update_eq_self]

theorem sets_of_setAt {state : SlotState} {f : ℕ} (h : state.setAt f ≠ FecSet.empty) :
    ∃ set, state.sets f = some set := by
  cases hs : state.sets f with
  | some set => exact ⟨set, rfl⟩
  | none => exact absurd (by rw [setAt, hs]; rfl) h

variable [Hasher] {state state' : SlotState} {x : Shred} {rs : Option ReedSolomon} {stats stats' : Stats}
  {out : List Segment}

/-- The set turned the shred away for its root or its signature. -/
def Mismatched (state : SlotState) (x : Shred) : Prop :=
  ((state.setAt x.fecSetIndex).insert x).2 = .rejected .merkleRootMismatch ∨
    ((state.setAt x.fecSetIndex).insert x).2 = .rejected .signatureMismatch

/- The counters of a call that gave up on the shred; a bad proof is not meant. -/
def GaveUp (state : SlotState) (x : Shred) (stats stats' : Stats) : Prop :=
  stats'.duplicates = stats.duplicates + 1 ∨ stats'.unneeded = stats.unneeded + 1 ∨
    stats'.rejected = stats.rejected + 1 ∧ Mismatched state x

/-- Only a set that holds something answers so. -/
theorem setAt_ne_empty (h : ((state.setAt x.fecSetIndex).insert x).2 = .duplicate ∨
    ((state.setAt x.fecSetIndex).insert x).2 = .unneeded ∨ Mismatched state x) :
    state.setAt x.fecSetIndex ≠ FecSet.empty := by
  intro he
  simp only [Mismatched, he] at h
  have hget : FecSet.empty.get x = none := by
    rw [FecSet.get_eq]
    cases x.position <;> rfl
  have hcomp : FecSet.empty.isComplete = false := rfl
  have hroot : FecSet.empty.root = none := rfl
  unfold FecSet.insert at h
  simp only [hcomp, hget, hroot, Bool.false_eq_true, and_false, ↓reduceIte, Option.isSome_none] at h
  cases hm : x.merkleRoot <;> simp [hm] at h

theorem storeInSet_gaveUp {mid : SlotState} {fresh : List ℕ}
    (hok : state.storeInSet x rs stats = .ok (mid, stats', fresh)) (h : GaveUp state x stats stats') :
    mid = state ∧ fresh = [] ∧ state ≠ SlotState.empty := by
  have hset : (state.sets x.fecSetIndex).getD FecSet.empty = state.setAt x.fecSetIndex := rfl
  -- the set that answered is the set that was there
  have hkept : ∀ why, why ≠ .new → (state.setAt x.fecSetIndex).insert x = (state.setAt x.fecSetIndex, why) →
      (why = .duplicate ∨ why = .unneeded ∨ Mismatched state x) →
      state.putSet x.fecSetIndex (state.setAt x.fecSetIndex) = state ∧ state ≠ SlotState.empty := by
    intro why hwhy hins hcount
    have hne : state.setAt x.fecSetIndex ≠ FecSet.empty := setAt_ne_empty (by rw [hins]; exact hcount)
    obtain ⟨set, hs⟩ := sets_of_setAt hne
    refine ⟨putSet_same hs, fun he => ?_⟩
    rw [he] at hs
    contradiction
  unfold storeInSet at hok
  dsimp only at hok
  rw [hset] at hok
  obtain ⟨root, hacc, hins⟩ | ⟨why, hwhy, hins, _⟩ := (state.setAt x.fecSetIndex).insert_cases x
  · rw [hins] at hok
    dsimp only at hok
    split at hok
    · contradiction
    · rename_i set' stats₁ indexes hrec
      obtain ⟨recovered, failures, rfl⟩ := recoverSet_stats hrec
      generalize (if x.isData then [x.index] else []) ++ indexes = available at hok
      split at hok
      · contradiction
      · split at hok
        · contradiction
        · cases hok
          rcases h with h | h | ⟨h, _⟩
          · exact absurd h (counter_ne _)
          · exact absurd h (counter_ne _)
          · exact absurd h (counter_ne _)
  · cases why with
    | new => contradiction
    | duplicate =>
      rw [hins] at hok
      cases hok
      obtain ⟨hsame, hne⟩ := hkept _ hwhy hins (.inl rfl)
      exact ⟨hsame, rfl, hne⟩
    | unneeded =>
      rw [hins] at hok
      cases hok
      obtain ⟨hsame, hne⟩ := hkept _ hwhy hins (.inr (.inl rfl))
      exact ⟨hsame, rfl, hne⟩
    | rejected why =>
      rw [hins] at hok
      cases hok
      rcases h with h | h | ⟨_, h⟩
      · exact absurd h (counter_ne _)
      · exact absurd h (counter_ne _)
      · obtain ⟨hsame, hne⟩ := hkept _ hwhy hins (.inr (.inr h))
        exact ⟨hsame, rfl, hne⟩

theorem store_gaveUp (hx : x.fecSetIndex ≤ 32736) {mid : SlotState} {fresh : List ℕ}
    (hok : state.store x rs stats = .ok (mid, stats', fresh)) (h : GaveUp state x stats stats') :
    mid = state ∧ fresh = [] ∧ state ≠ SlotState.empty := by
  unfold store at hok
  split at hok
  · rename_i hdup
    cases hok
    refine ⟨rfl, rfl, fun he => ?_⟩
    have hr := (state.received.contains_iff x.index).mp hdup.2
    rw [he] at hr
    simp [SlotState.empty] at hr
  · split at hok
    · contradiction
    · rename_i hcons
      cases hok
      refine ⟨rfl, rfl, fun he => ?_⟩
      split at hcons
      · simp at hcons
      · obtain ⟨b, hb, hiff⟩ := setIsConsumed_ok state hx
        rw [hb, Except.ok.injEq] at hcons
        have hone := hiff.mp hcons x.fecSetIndex le_rfl (by omega)
        rw [he] at hone
        simp [SlotState.empty] at hone
    · exact storeInSet_gaveUp hok h

/-- A call that gave up found its slot, and its set, and left them as they were. -/
theorem insert_gaveUp (hok : state.insert x rs stats = .ok (state', stats', out)) (h : GaveUp state x stats stats') :
    state' = state ∧ out = [] ∧ state ≠ SlotState.empty := by
  have hx := fecSetIndex_of_insert hok
  unfold insert at hok
  split at hok
  · contradiction
  · rename_i mid stats₁ fresh hstore
    split at hok
    · contradiction
    · rename_i hrun
      cases hok
      obtain ⟨rfl, rfl, hne⟩ := store_gaveUp hx hstore h
      simp only [Steps.runAll_nil, Except.ok.injEq, Prod.mk.injEq] at hrun
      exact ⟨hrun.1.symm, hrun.2.symm, hne⟩

/-! ### The counters decide nothing -/

/-- The result without the counters. -/
def uncounted {α β : Type} (r : Except Panic (α × Stats × β)) : Except Panic (α × β) := r.map fun x => (x.1, x.2.2)

omit [Hasher] in
theorem uncounted_cases {α β : Type} {r r₂ : Except Panic (α × Stats × β)} (h : uncounted r = uncounted r₂) :
    (∃ p, r = .error p ∧ r₂ = .error p) ∨ ∃ a s s₂ b, r = .ok (a, s, b) ∧ r₂ = .ok (a, s₂, b) := by
  cases r with
  | error p =>
    cases r₂ with
    | error p₂ =>
      have hp : p = p₂ := by simpa [uncounted, Except.map] using h
      exact .inl ⟨p, rfl, by rw [hp]⟩
    | ok q₂ => simp [uncounted, Except.map] at h
  | ok q =>
    cases r₂ with
    | error p₂ => simp [uncounted, Except.map] at h
    | ok q₂ =>
      obtain ⟨a, s, b⟩ := q
      obtain ⟨a₂, s₂, b₂⟩ := q₂
      obtain ⟨rfl, rfl⟩ : a = a₂ ∧ b = b₂ := by simpa [uncounted, Except.map] using h
      exact .inr ⟨a, s, s₂, b, rfl, rfl⟩

omit [Hasher] in
theorem recoverSet_uncounted (set : FecSet) (rs : Option ReedSolomon) (stats stats₂ : Stats) :
    uncounted (recoverSet set rs stats) = uncounted (recoverSet set rs stats₂) := by
  cases rs with
  | none => rfl
  | some r =>
    cases hc : set.canRecover with
    | false => simp only [recoverSet, hc, Bool.false_eq_true, ↓reduceIte, uncounted, Except.map]
    | true =>
      simp only [recoverSet, hc, ↓reduceIte]
      cases set.recover r with
      | error p => rfl
      | ok q =>
        obtain ⟨set', _ | is⟩ := q <;> rfl

theorem storeInSet_uncounted (state : SlotState) (x : Shred) (rs : Option ReedSolomon) (stats stats₂ : Stats) :
    uncounted (state.storeInSet x rs stats) = uncounted (state.storeInSet x rs stats₂) := by
  unfold storeInSet
  dsimp only
  split
  · rfl
  · rfl
  · rfl
  · rename_i set _
    obtain ⟨p, h1, h2⟩ | ⟨set', s, s₂, indexes, h1, h2⟩ := uncounted_cases (recoverSet_uncounted set rs stats stats₂)
    · rw [h1, h2]
    · rw [h1, h2]
      dsimp only
      generalize (if x.isData then [x.index] else []) ++ indexes = available
      split
      · rfl
      · cases markFresh set' x.fecSetIndex available (state.putSet x.fecSetIndex set') <;> rfl

theorem store_uncounted (state : SlotState) (x : Shred) (rs : Option ReedSolomon) (stats stats₂ : Stats) :
    uncounted (state.store x rs stats) = uncounted (state.store x rs stats₂) := by
  unfold store
  split
  · rfl
  · split
    · rfl
    · rfl
    · exact storeInSet_uncounted state x rs stats stats₂

theorem insert_uncounted (state : SlotState) (x : Shred) (rs : Option ReedSolomon) (stats stats₂ : Stats) :
    uncounted (state.insert x rs stats) = uncounted (state.insert x rs stats₂) := by
  unfold insert
  obtain ⟨p, h1, h2⟩ | ⟨mid, s, s₂, fresh, h1, h2⟩ := uncounted_cases (store_uncounted state x rs stats stats₂)
  · rw [h1, h2]
  · rw [h1, h2]
    dsimp only
    cases Steps.runAll completeAt mid fresh <;> rfl

end SlotState

namespace Deshredder
variable [Hasher] {d d' d₂ : Deshredder} {packet : Bytes} {out : List RawBatch}

/-- The states differ in their counters at most. -/
structure SameButStats (d d₂ : Deshredder) : Prop where
  config : d₂.config = d.config
  slots : d₂.slots = d.slots
  highestSlot : d₂.highestSlot = d.highestSlot
  rs : d₂.rs = d.rs

omit [Hasher] in
theorem SameButStats.refl (d : Deshredder) : SameButStats d d := ⟨rfl, rfl, rfl, rfl⟩

omit [Hasher] in
theorem SameButStats.symm (h : SameButStats d d₂) : SameButStats d₂ d where
  config := h.config.symm
  slots := h.slots.symm
  highestSlot := h.highestSlot.symm
  rs := h.rs.symm

omit [Hasher] in
theorem SameButStats.trans (h : SameButStats d d₂) (h' : SameButStats d₂ d') : SameButStats d d' where
  config := h'.config.trans h.config
  slots := h'.slots.trans h.slots
  highestSlot := h'.highestSlot.trans h.highestSlot
  rs := h'.rs.trans h.rs

omit [Hasher] in
theorem SameButStats.slotState_eq (h : SameButStats d d₂) (slot : ℕ) : d₂.slotState slot = d.slotState slot := by
  rw [Deshredder.slotState, Deshredder.slotState, h.slots]

omit [Hasher] in
theorem SameButStats.eq (h : SameButStats d d₂) : d₂ = { d with stats := d₂.stats } := by
  obtain ⟨config, slots, highestSlot, rs, stats⟩ := d₂
  obtain ⟨rfl, rfl, rfl, rfl⟩ := h
  rfl

theorem SameButStats.fate_eq (h : SameButStats d d₂) (packet : Bytes) : d₂.fate packet = d.fate packet := by
  rw [h.eq]
  rfl

theorem SameButStats.pushRaw (h : SameButStats d d₂) (packet : Bytes) :
    Steps.Follows SameButStats (d.pushRaw packet) (d₂.pushRaw packet) := by
  have heq := h.eq
  generalize d₂.stats = stats₂ at heq
  subst heq
  unfold Deshredder.pushRaw
  dsimp only
  cases hp : Shred.parse packet with
  | error e => exact ⟨_, rfl, rfl, rfl, rfl, rfl⟩
  | ok x =>
    dsimp only
    have hv : wrongVersion { d with stats := stats₂ } x = d.wrongVersion x := rfl
    have hst : isStale { d with stats := stats₂ } x = d.isStale x := rfl
    have hslot : slotState { d with stats := stats₂ } x.slot = d.slotState x.slot := rfl
    have hrec : recoverWith { d with stats := stats₂ } = d.recoverWith := rfl
    rw [hv, hst, hslot, hrec]
    split
    · exact ⟨_, rfl, rfl, rfl, rfl, rfl⟩
    · split
      · exact ⟨_, rfl, rfl, rfl, rfl, rfl⟩
      · obtain ⟨p, h1, h2⟩ | ⟨state, s, s₂, segments, h1, h2⟩ := SlotState.uncounted_cases
          ((d.slotState x.slot).insert_uncounted x d.recoverWith { d.stats with packets := d.stats.packets + 1 }
            { stats₂ with packets := stats₂.packets + 1 })
        · rw [h1, h2]
          rfl
        · rw [h1, h2]
          exact ⟨_, rfl, rfl, rfl, rfl, rfl⟩

/-- The run goes on as the Deshredder with other counters does. -/
theorem SameButStats.pushAll_snoc (h : SameButStats d d₂) {d₁ d₂' : Deshredder} {packets : List Bytes}
    {outs : List RawBatch} (hrun : d₁.pushAll packets = .ok (d, outs)) (hraw : d₂.pushRaw packet = .ok (d₂', out)) :
    ∃ d', d₁.pushAll (packets ++ [packet]) = .ok (d', outs ++ out) ∧ SameButStats d' d₂' := by
  obtain ⟨d', hok, hsame⟩ := (h.symm.pushRaw packet).ok hraw
  exact ⟨d', Steps.runAll_snoc_ok.mpr ⟨d, outs, out, hrun, hok, rfl⟩, hsame.symm⟩

/-- The push counted the datagram as invalid, of a wrong version, stale, duplicate or
unneeded, or as rejected for its root or signature. -/
def CountedDropped (d : Deshredder) (packet : Bytes) (d' : Deshredder) : Prop :=
  d'.stats.invalid = d.stats.invalid + 1 ∨ d'.stats.wrongVersion = d.stats.wrongVersion + 1 ∨
    d'.stats.stale = d.stats.stale + 1 ∨ d'.stats.duplicates = d.stats.duplicates + 1 ∨
    d'.stats.unneeded = d.stats.unneeded + 1 ∨ d'.stats.rejected = d.stats.rejected + 1 ∧
      ∃ x, Shred.parse packet = .ok x ∧ (d.slotState x.slot).Mismatched x

/- What a push leaves true for the next one. -/
structure Settled (d : Deshredder) : Prop where
  slots : SlotsInv d
  size : d.slots.size ≤ wrappingMul 4 d.config.slotLookback

omit [Hasher] in
theorem Settled.new (config : Config) (rs : ReedSolomon) : Settled (new config rs) :=
  ⟨SlotsInv.new config rs, Nat.zero_le _⟩

theorem Settled.pushed (h : Settled d) (hp : Pushed d packet d' out) : Settled d' := by
  have hslots := h.slots.pushed hp
  cases hp with
  | dropped stats _ => exact ⟨hslots, h.size⟩
  | inserted x state stats stats' segments _ _ => exact ⟨hslots, settle_size⟩

omit [Hasher] in
theorem settle_same {slot : ℕ} {state : SlotState} (h : Settled d) (hf : d.slots.find slot = some state) (stats : Stats) :
    SameButStats d (d.settle slot state stats []) := by
  have hput : d.slots.insert slot state = d.slots := by
    ext t
    by_cases ht : t = slot
    · rw [ht, OrdMap.insert_find_self, hf]
    · rw [OrdMap.insert_find_ne _ _ ht]
  have hbound : d.bound d.slots = d.slots := by
    rw [bound, OrdMap.popLastUntil, if_neg (not_lt.mpr h.size)]
  refine ⟨rfl, ?_, ?_, rfl⟩
  · simp only [settle, advances_nil, Bool.false_eq_true, ↓reduceIte, hput, hbound]
  · exact settle_nil_highestSlot

/-- A dropped datagram finds everything in place: only a counter moves. -/
theorem CountedDropped.same (hI : Settled d) (hok : d.pushRaw packet = .ok (d', out)) (h : CountedDropped d packet d') :
    SameButStats d d' ∧ out = [] := by
  unfold Deshredder.pushRaw at hok
  dsimp only at hok
  split at hok
  · cases hok
    exact ⟨⟨rfl, rfl, rfl, rfl⟩, rfl⟩
  · rename_i x hx
    split at hok
    · cases hok
      exact ⟨⟨rfl, rfl, rfl, rfl⟩, rfl⟩
    · split at hok
      · cases hok
        exact ⟨⟨rfl, rfl, rfl, rfl⟩, rfl⟩
      · split at hok
        · contradiction
        · rename_i state stats segments hins
          cases hok
          have hcounts := SlotState.insert_counts hins
          -- the slot itself gave up on the shred
          have hgave : (d.slotState x.slot).GaveUp x { d.stats with packets := d.stats.packets + 1 } stats := by
            rcases h with h | h | h | h | h | ⟨h, y, hy, hmis⟩
            · exact absurd (hcounts.invalid.symm.trans h) (SlotState.counter_ne _)
            · exact absurd (hcounts.wrongVersion.symm.trans h) (SlotState.counter_ne _)
            · exact absurd (hcounts.stale.symm.trans h) (SlotState.counter_ne _)
            · exact .inl h
            · exact .inr (.inl h)
            · rw [hx, Except.ok.injEq] at hy
              rw [hy]
              rw [hy] at hins
              exact .inr (.inr ⟨h, hmis⟩)
          obtain ⟨rfl, rfl, hne⟩ := SlotState.insert_gaveUp hins hgave
          have hfind : d.slots.find x.slot = some (d.slotState x.slot) := by
            cases hf : d.slots.find x.slot with
            | none => exact absurd (by rw [slotState, hf]; rfl) hne
            | some held => rw [slotState, hf, Option.getD_some]
          exact ⟨settle_same hI hfind stats, rfl⟩

theorem settled_of_pushAll {config : Config} {rs : ReedSolomon} {packets : List Bytes}
    (h : (new config rs).pushAll packets = .ok (d, out)) : Settled d :=
  Steps.runAll_induct (P := fun _ d _ => Settled d) (Settled.new config rs)
    (fun _ _ _ _ _ _ _ hI hok => hI.pushed (pushRaw_cases hok)) h

/-- The datagrams marked `false` are dropped where they stand in the run. -/
def DropsMarked (config : Config) (rs : ReedSolomon) (marked : List (Bytes × Bool)) : Prop :=
  ∀ before packet after d out, marked = before ++ (packet, false) :: after →
    (new config rs).pushAll (before.map Prod.fst) = .ok (d, out) →
    ∃ d' out', d.pushRaw packet = .ok (d', out') ∧ CountedDropped d packet d'

/- What a datagram that is dropped leaves behind. -/
structure NoTrace (d d' : Deshredder) (out : List RawBatch) : Prop where
  slots : d'.slots = d.slots
  highestSlot : d'.highestSlot = d.highestSlot
  emitted : out = []

/-- Dropped packets leave no trace, and a run without them ends like the run with them:
in the same panic, or with the same batches and the same state but for the counters. -/
theorem traceless (config : Config) (rs : ReedSolomon) :
    (∀ packets d out, (new config rs).pushAll packets = .ok (d, out) → ∀ packet d' out',
      d.pushRaw packet = .ok (d', out') → CountedDropped d packet d' → NoTrace d d' out') ∧
    ∀ marked, DropsMarked config rs marked →
      Steps.Follows SameButStats ((new config rs).pushAll (marked.map Prod.fst))
        ((new config rs).pushAll ((marked.filter Prod.snd).map Prod.fst)) := by
  have hstep : ∀ d packet d' out, Settled d → d.pushRaw packet = .ok (d', out) → Settled d' :=
    fun d packet d' out hI hok => hI.pushed (pushRaw_cases hok)
  constructor
  · intro packets d out hrun packet d' out' hok hdrop
    obtain ⟨hsame, hout⟩ := hdrop.same (settled_of_pushAll hrun) hok
    exact ⟨hsame.slots, hsame.highestSlot, hout⟩
  · intro marked hmarked
    have hskip : ∀ d d₂ packet, Settled d → SameButStats d d₂ →
        (∃ d' out', d.pushRaw packet = .ok (d', out') ∧ CountedDropped d packet d') →
        ∃ d', d.pushRaw packet = .ok (d', []) ∧ SameButStats d' d₂ := by
      intro d d₂ packet hI hR ⟨d', out', hok, hdrop⟩
      obtain ⟨hsame, rfl⟩ := hdrop.same hI hok
      exact ⟨d', hok, hsame.symm.trans hR⟩
    exact Steps.runAll_delete hstep (fun d d₂ packet _ hR => hR.pushRaw packet) hskip (Settled.new config rs)
      (SameButStats.refl _) marked hmarked

/-! ### Datagrams that are dropped -/

/-- The fate of a datagram tells that it is dropped. -/
structure Dropped (d : Deshredder) (packet : Bytes) : Prop where
  inRange : ∀ x, Shred.parse packet = .ok x → x.fecSetIndex ≤ 32736
  fate : d.fate packet ≠ .stored
  mismatched : d.fate packet = .rejected → ∃ x, Shred.parse packet = .ok x ∧ (d.slotState x.slot).Mismatched x

theorem Dropped.same (h : Dropped d packet) (hsame : SameButStats d d₂) : Dropped d₂ packet where
  inRange := h.inRange
  fate := by
    rw [hsame.fate_eq]
    exact h.fate
  mismatched hr := by
    rw [hsame.fate_eq] at hr
    obtain ⟨x, hx, hmis⟩ := h.mismatched hr
    exact ⟨x, hx, by rwa [hsame.slotState_eq]⟩

theorem Dropped.counted (h : Dropped d packet) (hok : d.pushRaw packet = .ok (d', out)) : CountedDropped d packet d' := by
  have hcounts := pushRaw_counts_once hok
  have hinvalid := congrArg Stats.invalid hcounts
  have hversion := congrArg Stats.wrongVersion hcounts
  have hstale := congrArg Stats.stale hcounts
  have hduplicate := congrArg Stats.duplicates hcounts
  have hunneeded := congrArg Stats.unneeded hcounts
  have hrejected := congrArg Stats.rejected hcounts
  cases hf : d.fate packet with
  | invalid =>
    rw [hf] at hinvalid
    exact .inl hinvalid
  | wrongVersion =>
    rw [hf] at hversion
    exact .inr (.inl hversion)
  | stale =>
    rw [hf] at hstale
    exact .inr (.inr (.inl hstale))
  | duplicate =>
    rw [hf] at hduplicate
    exact .inr (.inr (.inr (.inl hduplicate)))
  | unneeded =>
    rw [hf] at hunneeded
    exact .inr (.inr (.inr (.inr (.inl hunneeded))))
  | rejected =>
    rw [hf] at hrejected
    exact .inr (.inr (.inr (.inr (.inr ⟨hrejected, h.mismatched hf⟩))))
  | stored => exact absurd hf h.fate

theorem Dropped.pushed (h : Dropped d packet) (hI : Settled d) :
    ∃ d', d.pushRaw packet = .ok (d', []) ∧ CountedDropped d packet d' := by
  obtain ⟨⟨d', out⟩, hok⟩ := (pushRaw_ok_iff hI.slots packet).mpr fun x hx _ => h.inRange x hx.parsed
  have hcounted := h.counted hok
  obtain ⟨_, rfl⟩ := hcounted.same hI hok
  exact ⟨d', hok, hcounted⟩

/-- After a run of them the state is as before, and they would be dropped again. -/
theorem Dropped.runAll {packets : List Bytes} (hI : Settled d) (h : ∀ packet ∈ packets, Dropped d packet)
    (hok : d.pushAll packets = .ok (d', out)) : Settled d' ∧ SameButStats d d' := by
  refine Steps.runAll_induct (P := fun packets d' _ => (∀ packet ∈ packets, Dropped d packet) → Settled d' ∧ SameButStats d d')
    (fun _ => ⟨hI, SameButStats.refl d⟩) ?_ hok h
  intro packets s os packet s' out _ ih hstep hall
  obtain ⟨hS, hsame⟩ := ih fun p hp => hall p (List.mem_append_left _ hp)
  have hdrop := (hall packet (by simp)).same hsame
  obtain ⟨hnext, _⟩ := (hdrop.counted hstep).same hS hstep
  exact ⟨hS.pushed (pushRaw_cases hstep), hsame.trans hnext⟩

omit [Hasher] in
theorem marked_lists (before drops after : List Bytes) :
    (before.map (·, true) ++ (drops.map (·, false) ++ after.map (·, true))).map Prod.fst = before ++ (drops ++ after) ∧
      ((before.map (·, true) ++ (drops.map (·, false) ++ after.map (·, true))).filter Prod.snd).map Prod.fst =
        before ++ after := by
  constructor
  · simp [Function.comp_def]
  · simp [List.filter_map, Function.comp_def]

omit [Hasher] in
/- Where a marked datagram lies. -/
theorem marked_split {before drops after : List Bytes} {first rest : List (Bytes × Bool)}
    (h : before.map (·, true) ++ (drops.map (·, false) ++ after.map (·, true)) = first ++ (packet, false) :: rest) :
    ∃ mid post, drops = mid ++ packet :: post ∧ first = before.map (·, true) ++ mid.map (·, false) := by
  induction before generalizing first with
  | nil =>
    induction drops generalizing first with
    | nil =>
      have hmem : (packet, false) ∈ after.map (·, true) := by
        rw [List.map_nil, List.map_nil, List.nil_append, List.nil_append] at h
        rw [h]
        simp
      simp at hmem
    | cons drop drops ih =>
      cases first with
      | nil =>
        obtain ⟨hhead, _⟩ := List.cons.inj h
        exact ⟨[], drops, by rw [(Prod.mk.inj hhead).1]; rfl, rfl⟩
      | cons f first =>
        obtain ⟨hhead, htail⟩ := List.cons.inj h
        obtain ⟨mid, post, hdrops, hfirst⟩ := ih htail
        exact ⟨drop :: mid, post, by rw [hdrops]; rfl, by rw [hfirst, ← hhead]; rfl⟩
  | cons b before ih =>
    cases first with
    | nil => exact absurd (Prod.mk.inj (List.cons.inj h).1).2 (by decide)
    | cons f first =>
      obtain ⟨hhead, htail⟩ := List.cons.inj h
      obtain ⟨mid, post, hdrops, hfirst⟩ := ih htail
      exact ⟨mid, post, hdrops, by rw [hfirst, ← hhead]; rfl⟩

/-- They may be marked where they follow the run that makes them superfluous. -/
theorem dropsMarked {config : Config} {rs : ReedSolomon} {before drops after : List Bytes}
    (hrun : (new config rs).pushAll before = .ok (d, out)) (h : ∀ packet ∈ drops, Dropped d packet) :
    DropsMarked config rs (before.map (·, true) ++ (drops.map (·, false) ++ after.map (·, true))) := by
  intro first packet rest s os heq hs
  obtain ⟨mid, post, rfl, rfl⟩ := marked_split heq
  rw [List.map_append, List.map_map, List.map_map] at hs
  obtain ⟨d₁, out₁, out₂, h₁, h₂, rfl⟩ := Steps.runAll_append_ok.mp hs
  have hd₁ : d₁ = d := by
    have hids : before.map (Prod.fst ∘ (·, true)) = before := List.map_id _
    rw [hids] at h₁
    have hok := h₁.symm.trans hrun
    simp only [Except.ok.injEq, Prod.mk.injEq] at hok
    exact hok.1
  subst hd₁
  have hids : mid.map (Prod.fst ∘ (·, false)) = mid := List.map_id _
  rw [hids] at h₂
  obtain ⟨hS, hsame⟩ := Dropped.runAll (settled_of_pushAll hrun) (fun p hp => h p (by simp [hp])) h₂
  obtain ⟨d', hok, hcounted⟩ := ((h packet (by simp)).same hsame).pushed hS
  exact ⟨d', [], hok, hcounted⟩

/-! ### A duplicate, an unneeded shred and a forged one -/

omit [Hasher] in
/- A blank shred at the head of the second set, under a signature that is not the leader's. -/
def forged (slot : ℕ) : DataPacket :=
  { DataPacket.blank slot 32 0 with signature := ⟨List.replicate 64 1, List.length_replicate⟩ }

omit [Hasher] in
theorem forged_valid {slot : ℕ} (hs : slot < 2 ^ 64) : (forged slot).Valid false 1083 := by
  have h := DataPacket.blank_valid hs (show 32 < 32768 by decide) (.inl rfl)
  exact ⟨⟨h.slot, h.index, h.version, h.fecSetIndex⟩, h.kind, h.room, h.body, h.aligned, h.inSet, h.parent, h.flags, h.size⟩

section
variable {rs : ReedSolomon} {p : Fin 32} {slot : ℕ} (hs : slot < 2 ^ 64) {content : Bytes} (hc : content.length ≤ 963)

theorem Delivering.fate_duplicate
    (h : Delivering (carriedBlocks hs hc) ⟨none, 64, true⟩ rs slot ((secondPlaces p).map (carriedPacket hs hc)) d out)
    (ha : slot + 2 * 64 < 2 ^ 64) : d.fate (carriedPacket hs hc (1, .data p)) = .duplicate := by
  have hx := h.admitted ha (carriedBlocks_consistent hs hc) (.inl rfl) 
    (carriedPacket_fromLeader hs hc (show ((1, .data p) : Fin 1024 × Position).1 = 0 ∨ _ from .inr rfl) 64)
  have hC := carriedSet_consistent hs hc 1
  obtain ⟨hk, hi, _⟩ := ((carriedSet hs 1 hc).shred (.data p)).position_data (hC.position (.data p))
  rw [hC.fecSetIndex] at hi
  rw [fate_admitted hx, hC.slot, SlotState.fate]
  refine if_pos ⟨(Shred.isData_iff _).mpr hk, ?_⟩
  have havail := secondPlaces_available hs hc (arrivedAt_arrivals hs hc (secondPlaces p))
  rw [((d.slotState slot).received.contains_iff _), (h.tracks slot).received, carriedBlocks_slot, havail, hi]
  exact .inr rfl

theorem Delivering.fate_unneeded
    (h : Delivering (carriedBlocks hs hc) ⟨none, 64, true⟩ rs slot ((secondPlaces p).map (carriedPacket hs hc)) d out)
    (ha : slot + 2 * 64 < 2 ^ 64) (r : Fin 32) : d.fate (carriedPacket hs hc (0, .code r)) = .unneeded := by
  have hx := h.admitted ha (carriedBlocks_consistent hs hc) (.inl rfl) 
    (carriedPacket_fromLeader hs hc (show ((0, .code r) : Fin 1024 × Position).1 = 0 ∨ _ from .inl rfl) 64)
  have hC := carriedSet_consistent hs hc 0
  have hk : ((carriedSet hs 0 hc).shred (.code r)).isData = false := by
    have hcode := (((carriedSet hs 0 hc).shred (.code r)).position_code (hC.position (.code r))).1
    simp [Shred.isData, hcode]
  obtain ⟨b, hb, hiff⟩ := SlotState.setIsConsumed_ok (d.slotState slot) (Nat.zero_le 32736)
  have htrue : b = true := hiff.mpr (h.carried_consumed hs hc)
  rw [fate_admitted hx, hC.slot, SlotState.fate, hC.fecSetIndex]
  rw [if_neg (fun hd => Bool.false_ne_true (hk.symm.trans hd.1))]
  refine if_pos ⟨hk, ?_⟩
  rw [← htrue]
  exact hb

/-- A set that knows another signature turns the shred away, wherever it was open. -/
theorem insert_mismatched {state : SlotState} {x : Shred} {root : Hash32} (hk : x.kind = .data)
    (hopen : (state.setAt x.fecSetIndex).held x.position = none) (hroot : (state.setAt x.fecSetIndex).root = some root)
    (hproof : x.merkleRoot.isSome = true) (hsig : (state.setAt x.fecSetIndex).signature ≠ x.signature) :
    state.Mismatched x := by
  obtain ⟨r, hr⟩ := Option.isSome_iff_exists.mp hproof
  unfold SlotState.Mismatched FecSet.insert
  simp only [hk, FecSet.get_eq, hopen, hroot, hr, hsig, reduceCtorEq, false_and, Option.isSome_none, Bool.false_eq_true,
    if_false, ne_eq, not_false_eq_true, if_true]
  by_cases heq : root = r
  · right
    rw [if_neg (not_not_intro heq)]
  · left
    rw [if_pos heq]

theorem fate_of_mismatched {state : SlotState} {x : Shred} (hk : x.kind = .data) (hr : x.index ∉ state.received.ones)
    (h : state.Mismatched x) : state.fate x = .rejected := by
  have hfirst : ¬ (x.isData = true ∧ state.received.contains x.index = true) := by
    exact fun hd => hr ((state.received.contains_iff _).mp hd.2)
  have hsecond : ¬ (x.isData = false ∧ state.setIsConsumed x.fecSetIndex = .ok true) := by
    rw [x.isData_iff.mpr hk]
    exact fun hd => Bool.false_ne_true hd.1.symm
  have hset : (state.sets x.fecSetIndex).getD FecSet.empty = state.setAt x.fecSetIndex := rfl
  rw [SlotState.fate, if_neg hfirst, if_neg hsecond, hset]
  rcases h with h | h
  · rw [h]
  · rw [h]

/-- The second set has its root and its signature from the leader. -/
theorem Delivering.fate_forged
    (h : Delivering (carriedBlocks hs hc) ⟨none, 64, true⟩ rs slot ((secondPlaces p).map (carriedPacket hs hc)) d out)
    (ha : slot + 64 < 2 ^ 64) (hp : p ≠ 0) : d.fate (forged slot).packet = .rejected ∧
      (d.slotState slot).Mismatched ((forged slot).shred (forged_valid hs)) := by
  have hvalid := forged_valid hs
  have hx : Admitted d (forged slot).packet ((forged slot).shred hvalid) := by
    refine ⟨DataPacket.parse_packet _ hvalid, by rw [wrongVersion, h.config_eq]; rfl, ?_⟩
    rw [← Bool.not_eq_true, isStale_iff (d := d) h.slotLookback (x := (forged slot).shred hvalid) ha]
    exact Nat.not_lt.mpr h.highest
  have hA := arrivedAt_arrivals hs hc (secondPlaces p)
  have hzero : Position.data 0 ∉ arrivals ((secondPlaces p).map (carriedPacket hs hc)) slot 32 := by
    rw [hA.second, Finset.mem_singleton, Position.data.injEq]
    exact Ne.symm hp
  have hnew : 32 ∉ (d.slotState slot).received.ones := by
    rw [(h.tracks slot).received, carriedBlocks_slot, secondPlaces_available hs hc hA]
    have hpos : (p : ℕ) ≠ 0 := fun he => hp (Fin.ext he)
    omega
  have hlive : ¬ (d.slotState slot).SetConsumed 32 := fun hcons =>
    hnew ((h.slots.slotState slot).consumed_received (hcons 32 le_rfl (by omega)))
  have hready : ¬ Ready true (arrivals ((secondPlaces p).map (carriedPacket hs hc)) slot 32) := by
    rw [Ready, hA.second, Finset.card_singleton]
    rintro (hall | ⟨_, hmany⟩)
    · exact hzero (by rw [hA.second]; exact hall 0)
    · omega
  -- what the set knows is the leader's
  obtain ⟨root, hroot⟩ := (carriedSet_consistent hs hc 1).sealed
  have hblock : carriedBlocks hs hc slot 32 = some (carriedSet hs 1 hc) := by
    rw [carriedBlocks_slot]
    rfl
  have hholding := ((h.tracks slot).sets 32 _ hblock hlive).waiting hready root hroot
  obtain ⟨hknown, hsig⟩ := hholding.known (by rw [hA.second]; exact Finset.singleton_nonempty _)
  have hleader : ((carriedSet hs 1 hc).data 0).signature.val = List.replicate 64 0 :=
    congrArg Subtype.val (SetDraft.sealedSet_signature _ (.data 0))
  have hforged : ((forged slot).shred hvalid).signature.val = List.replicate 64 1 :=
    congrArg Subtype.val (DataPacket.shred_signature _ hvalid)
  have hmis : (d.slotState slot).Mismatched ((forged slot).shred hvalid) := by
    refine insert_mismatched rfl ?_ hknown (Shred.merkleRoot_isSome _ rfl) ?_
    · exact (hholding.held (.data 0)).trans (if_neg hzero)
    · intro heq
      have hval := congrArg Subtype.val (hsig.symm.trans heq)
      rw [hleader, hforged] at hval
      exact absurd hval (by decide)
  exact ⟨(fate_admitted hx).trans (fate_of_mismatched rfl hnew hmis), hmis⟩

/- An empty datagram, a shred that came before, one of a set that is done, and a forged one. -/
def superfluous (p r : Fin 32) : List Bytes :=
  [[], carriedPacket hs hc (1, .data p), carriedPacket hs hc (0, .code r), (forged slot).packet]

theorem Delivering.superfluous_fates
    (h : Delivering (carriedBlocks hs hc) ⟨none, 64, true⟩ rs slot ((secondPlaces p).map (carriedPacket hs hc)) d out)
    (ha : slot + 2 * 64 < 2 ^ 64) (hp : p ≠ 0) (r : Fin 32) :
    (superfluous hs hc p r).map d.fate = [.invalid, .duplicate, .unneeded, .rejected] := by
  have hempty : d.fate [] = .invalid := rfl
  rw [superfluous, List.map_cons, List.map_cons, List.map_cons, List.map_cons, List.map_nil, hempty,
    h.fate_duplicate hs hc ha, h.fate_unneeded hs hc ha, (h.fate_forged hs hc (by omega) hp).1]

theorem Delivering.superfluous_dropped
    (h : Delivering (carriedBlocks hs hc) ⟨none, 64, true⟩ rs slot ((secondPlaces p).map (carriedPacket hs hc)) d out)
    (ha : slot + 2 * 64 < 2 ^ 64) (hp : p ≠ 0) (r : Fin 32) : ∀ packet ∈ superfluous hs hc p r, Dropped d packet := by
  have hrange : ∀ place, ∀ x, Shred.parse (carriedPacket hs hc place) = .ok x → x.fecSetIndex ≤ 32736 := by
    intro place x hx
    have hC := carriedSet_consistent hs hc place.1
    rw [← Except.ok.inj ((Shred.parse_bytes ((carriedSet hs place.1 hc).shred place.2)).symm.trans hx), hC.fecSetIndex]
    exact hC.inRange
  intro packet hpacket
  simp only [superfluous, List.mem_cons, List.not_mem_nil, or_false] at hpacket
  rcases hpacket with rfl | rfl | rfl | rfl
  · have hfate : d.fate [] = .invalid := rfl
    exact ⟨fun x hx => (by contradiction), by rw [hfate]; decide, by rw [hfate]; exact fun h => (by contradiction)⟩
  · have hfate := h.fate_duplicate hs hc ha
    exact ⟨hrange _, by rw [hfate]; decide, by rw [hfate]; exact fun h => (by contradiction)⟩
  · have hfate := h.fate_unneeded hs hc ha r
    exact ⟨hrange _, by rw [hfate]; decide, by rw [hfate]; exact fun h => (by contradiction)⟩
  · obtain ⟨hfate, hmis⟩ := h.fate_forged hs hc (by omega) hp
    have hparse := DataPacket.parse_packet _ (forged_valid hs)
    refine ⟨fun x hx => ?_, by rw [hfate]; decide, fun _ => ⟨_, hparse, hmis⟩⟩
    rw [← Except.ok.inj (hparse.symm.trans hx)]
    show 32 ≤ 32736
    decide

end

omit [Hasher] in
/-- A set is recovered and the next one starts; four datagrams leave no trace, and the shred
behind them finds what it would find without them. -/
theorem traceless_four_drops :
    let : Hasher := sha256Hasher
    let packets := (secondPlaces 1).map (carriedPacket sampleSlot_lt nil_fits)
    let drops := superfluous sampleSlot_lt nil_fits 1 3
    let last := carriedPacket sampleSlot_lt nil_fits (1, .data 2)
    ∃ d out, (new ⟨none, 64, true⟩ (carriedRs 7 [])).pushAll packets = .ok (d, out) ∧
      drops.map d.fate = [.invalid, .duplicate, .unneeded, .rejected] ∧
      (∀ packet ∈ drops, ∃ d', d.pushRaw packet = .ok (d', []) ∧ CountedDropped d packet d' ∧ NoTrace d d' []) ∧
      Steps.Follows SameButStats ((new ⟨none, 64, true⟩ (carriedRs 7 [])).pushAll (packets ++ (drops ++ [last])))
        ((new ⟨none, 64, true⟩ (carriedRs 7 [])).pushAll (packets ++ [last])) := by
  intro _ packets drops last
  obtain ⟨d, out, hrun, hD⟩ := carried_delivering sampleSlot_lt nil_fits (by decide) true (secondPlaces_sets 1)
  obtain ⟨hnone, hdelete⟩ := traceless ⟨none, 64, true⟩ (carriedRs 7 [])
  have hdrops : ∀ packet ∈ drops, Dropped d packet :=
    hD.superfluous_dropped sampleSlot_lt nil_fits (by decide) (by decide) 3
  refine ⟨d, out, hrun, hD.superfluous_fates sampleSlot_lt nil_fits (by decide) (by decide) 3, ?_, ?_⟩
  · intro packet hpacket
    obtain ⟨d', hok, hcounted⟩ := (hdrops packet hpacket).pushed (settled_of_pushAll hrun)
    exact ⟨d', hok, hcounted, hnone packets d out hrun packet d' [] hok hcounted⟩
  · have hmarked : DropsMarked ⟨none, 64, true⟩ (carriedRs 7 [])
        (packets.map (·, true) ++ (drops.map (·, false) ++ [last].map (·, true))) := dropsMarked hrun hdrops
    have hfollows := hdelete _ hmarked
    obtain ⟨hall, hkept⟩ := marked_lists packets drops [last]
    rwa [hall, hkept] at hfollows

end Deshredder
end Deshred
