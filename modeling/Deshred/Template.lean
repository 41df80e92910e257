import Deshred.Layout

/-!
# The template of a recovery

`any_shred` stands for its whole set: `recover` takes shard length, version and chained
root from it. `insert` compares root and signature only, so nothing but the sender makes
the shreds of a set agree on these.
-/

namespace Deshred

/-- What recovery takes from a template, and what determines the length of its shard. -/
structure Shred.SameLayout (x y : Shred) : Prop where
  version : x.version = y.version
  proofSize : x.proofSize = y.proofSize
  resigned : x.resigned = y.resigned
  shardLength : x.erasureShard.length = y.erasureShard.length
  chainedMerkleRoot : x.chainedMerkleRoot = y.chainedMerkleRoot

namespace Shred
variable {x y z : Shred}

theorem SameLayout.refl (x : Shred) : SameLayout x x := ⟨rfl, rfl, rfl, rfl, rfl⟩

theorem SameLayout.symm (h : SameLayout x y) : SameLayout y x :=
  ⟨h.version.symm, h.proofSize.symm, h.resigned.symm, h.shardLength.symm, h.chainedMerkleRoot.symm⟩

theorem SameLayout.trans (h : SameLayout x y) (h' : SameLayout y z) : SameLayout x z :=
  ⟨h.version.trans h'.version, h.proofSize.trans h'.proofSize, h.resigned.trans h'.resigned,
    h.shardLength.trans h'.shardLength, h.chainedMerkleRoot.trans h'.chainedMerkleRoot⟩

theorem erasureShard_length_eq_iff : x.erasureShard.length = y.erasureShard.length ↔
    x.proofSize = y.proofSize ∧ x.resigned = y.resigned := by
  have hx := x.erasureShard_length
  have hy := y.erasureShard_length
  constructor
  · intro h
    -- 64 is no multiple of 20
    cases hrx : x.resigned <;> cases hry : y.resigned <;>
      simp only [hrx, hry, Bool.false_eq_true, ↓reduceIte] at hx hy <;> first
      | exact ⟨by omega, rfl⟩
      | omega
  · intro ⟨hp, hr⟩
    rw [hp, hr] at hx
    omega

end Shred

namespace FecSet
variable {set set' : FecSet} {x y t : Shred} {f : ℕ} {root : Hash32} {rs : Option ReedSolomon} {indexes : List ℕ}

/-- All shreds the set holds agree on what recovery takes from its template, and the
reconstruction sees shards of one length. -/
def Uniform (set : FecSet) : Prop := ∀ q r x y, set.held q = some x → set.held r = some y →
  x.version = y.version ∧ x.erasureShard.length = y.erasureShard.length ∧ x.chainedMerkleRoot = y.chainedMerkleRoot

theorem uniform_of_template (h : ∀ q y, set.held q = some y → y.version = t.version ∧
    y.erasureShard.length = t.erasureShard.length ∧ y.chainedMerkleRoot = t.chainedMerkleRoot) : set.Uniform := by
  intro q r x y hx hy
  obtain ⟨h1, h2, h3⟩ := h q x hx
  obtain ⟨h4, h5, h6⟩ := h r y hy
  exact ⟨h1.trans h4.symm, h2.trans h5.symm, h3.trans h6.symm⟩

theorem Uniform.empty : FecSet.empty.Uniform := by
  intro q r x y hx _
  cases q <;> contradiction

theorem held_of_anyShred (h : set.anyShred = some t) : ∃ q, set.held q = some t := by
  have hmem := List.mem_of_head? h
  rw [List.reduceOption_mem_iff, List.mem_append] at hmem
  rcases hmem with hmem | hmem
  · obtain ⟨p, _, hp⟩ := List.mem_map.mp hmem
    exact ⟨.code p, hp⟩
  · obtain ⟨p, _, hp⟩ := List.mem_map.mp hmem
    exact ⟨.data p, hp⟩

theorem anyShred_of_held {q : Position} (h : set.held q = some x) : ∃ t, set.anyShred = some t := by
  cases ht : set.anyShred with
  | some t => exact ⟨t, rfl⟩
  | none =>
    rw [anyShred, List.head?_eq_none_iff] at ht
    have hmem : x ∈ ((List.finRange 32).map set.code ++ (List.finRange 32).map set.data).reduceOption := by
      rw [List.reduceOption_mem_iff, List.mem_append]
      cases q with
      | data p => exact .inr (List.mem_map.mpr ⟨p, List.mem_finRange p, h⟩)
      | code p => exact .inl (List.mem_map.mpr ⟨p, List.mem_finRange p, h⟩)
    rw [ht] at hmem
    contradiction

theorem Uniform.template (h : set.Uniform) (ht : set.anyShred = some t) {q : Position} (hy : set.held q = some y) :
    y.version = t.version ∧ y.erasureShard.length = t.erasureShard.length ∧
      y.chainedMerkleRoot = t.chainedMerkleRoot := by
  obtain ⟨r, hr⟩ := held_of_anyShred ht
  exact h q r y t hy hr

/-! ### What an incomplete set holds -/

/-- An incomplete set still holds all it received, and a shred it did not receive was
recovered next to a code shred. -/
structure Gathered (R : Shred → Prop) (set : FecSet) : Prop where
  held : set.isComplete = false → ∀ y, R y → set.held y.position = some y
  origin : ∀ q y, set.held q = some y → R y ∨
    (∃ p, q = .data p) ∧ (set.isComplete = true ∨ ∃ p z, set.code p = some z)

theorem Gathered.empty : Gathered (fun _ => False) FecSet.empty where
  held _ _ h := h.elim
  origin q y h := by cases q <;> contradiction

theorem Gathered.congr {R R' : Shred → Prop} (h : Gathered R set) (hR : ∀ y, R' y ↔ R y) : Gathered R' set where
  held hc y hy := h.held hc y ((hR y).mp hy)
  origin q y hy := (h.origin q y hy).imp_left (hR y).mpr

section
variable [Hasher] {R : Shred → Prop}

theorem Accepts.not_complete (h : Accepts set x root) (hI : Inv f set) : set.isComplete = false := by
  cases hp : x.position with
  | code p => exact h.needed (x.position_code hp).1
  | data p =>
    have hfresh := h.fresh
    rw [get_eq, hp] at hfresh
    cases hc : set.isComplete with
    | false => rfl
    | true =>
      have hall := hI.toPlaced.isComplete_iff.mp hc p
      rw [show set.data p = none from hfresh] at hall
      contradiction

theorem held_accepted (hI : Inv f (set.accepted x root)) (h : Accepts set x root)
    (hc : (set.accepted x root).isComplete = false) (q : Position) :
    (set.accepted x root).held q = if q = x.position then some x else set.held q := by
  obtain ⟨p, hp⟩ : ∃ p, (set.accepted x root).data p = none := by
    by_contra hall
    have hcomp : (set.accepted x root).isComplete = true :=
      hI.toPlaced.isComplete_iff.mpr fun p => Option.isSome_iff_ne_none.mpr fun hp => hall ⟨p, hp⟩
    rw [hcomp] at hc
    contradiction
  exact accepted_held_eq hI h.needed hp q

theorem Gathered.accepted (hG : Gathered R set) (hI : Inv f set) (hx : x.fecSetIndex = f) (h : Accepts set x root) :
    Gathered (fun y => R y ∨ y = x) (set.accepted x root) where
  held hc y hy := by
    have hold := held_accepted (hI.accepted hx h) h hc
    rw [hold]
    rcases hy with hy | rfl
    · have hheld := hG.held (h.not_complete hI) y hy
      have hne : y.position ≠ x.position := by
        intro heq
        have hfresh := h.fresh
        rw [get_eq, ← heq, hheld] at hfresh
        contradiction
      rw [if_neg hne]
      exact hheld
    · rw [if_pos rfl]
  origin q y hy := by
    rcases accepted_held h.needed hy with hold | ⟨_, rfl⟩
    · rcases hG.origin q y hold with hR | ⟨hq, hcomp | ⟨p, z, hz⟩⟩
      · exact .inl (.inl hR)
      · rw [h.not_complete hI] at hcomp
        contradiction
      · refine .inr ⟨hq, ?_⟩
        cases hc : (set.accepted x root).isComplete with
        | true => exact .inl rfl
        | false =>
          have hcode := held_accepted (hI.accepted hx h) h hc (.code p)
          by_cases hp : Position.code p = x.position
          · rw [if_pos hp] at hcode
            exact .inr ⟨p, x, hcode⟩
          · rw [if_neg hp] at hcode
            exact .inr ⟨p, z, hcode.trans hz⟩
    · exact .inl (.inr rfl)

omit [Hasher] in
theorem code_of_canRecover (hI : Inv f set) (hc : set.canRecover = true) : ∃ p z, set.code p = some z := by
  simp only [canRecover, Bool.and_eq_true, decide_eq_true_eq] at hc
  obtain ⟨⟨_, hpos⟩, _⟩ := hc
  rw [hI.num_code] at hpos
  exact occupied_pos hpos

omit [Hasher] in
theorem Gathered.recovering (hG : Gathered R set) (hI : Inv f set)
    (h : SlotState.Recovering f set rs set' indexes) : Gathered R set' := by
  cases h with
  | idle _ => exact hG
  | failed r set' e _ hc _ h =>
    obtain ⟨p₀, z, hz⟩ := code_of_canRecover hI hc
    have hnc : set.isComplete = false := by
      simp only [canRecover, Bool.and_eq_true, Bool.not_eq_true'] at hc
      exact hc.1.1
    have hkeep : ∀ p y, set.data p = some y → set'.data p = some y := fun _ _ hy => h.keeps hy
    cases h with
    | failed l e hl hshort =>
      obtain ⟨hcode, _⟩ := set.installAll_fields l
      refine ⟨fun _ y hy => ?_, fun q y hy => ?_⟩
      · have hheld := hG.held hnc y hy
        cases hp : y.position with
        | data p =>
          rw [hp] at hheld
          exact hkeep p y hheld
        | code p =>
          rw [hp] at hheld
          rw [FecSet.held, hcode]
          exact hheld
      · cases q with
        | data p => exact .inr ⟨⟨p, rfl⟩, .inr ⟨p₀, z, by rw [hcode]; exact hz⟩⟩
        | code p =>
          rw [FecSet.held, hcode] at hy
          rcases hG.origin (.code p) y hy with hR | ⟨⟨r, hr⟩, _⟩
          · exact .inl hR
          · contradiction
  | complete r set' indexes _ hc _ h =>
    have hI' := h.inv hI
    obtain ⟨_, hfull, hcode⟩ := h.ok
    have hcomp := hI'.toPlaced.isComplete_iff.mpr hfull
    refine ⟨fun hc => ?_, fun q y hy => ?_⟩
    · rw [hcomp] at hc
      contradiction
    · cases q with
      | data p => exact .inr ⟨⟨p, rfl⟩, .inl hcomp⟩
      | code p =>
        rw [FecSet.held, hcode] at hy
        contradiction

omit [Hasher] in
theorem Gathered.template (hG : Gathered R set) (hc : set.isComplete = false) (ht : set.anyShred = some t) : R t := by
  have hnot : ∀ {q}, set.held q = some t → (∀ p, set.code p = none) → R t := by
    intro q hq hnone
    rcases hG.origin q t hq with hR | ⟨_, hcomp | ⟨p, z, hz⟩⟩
    · exact hR
    · rw [hc] at hcomp
      contradiction
    · rw [hnone p] at hz
      contradiction
  by_cases hcode : ∀ p, set.code p = none
  · obtain ⟨q, hq⟩ := held_of_anyShred ht
    exact hnot hq hcode
  · obtain ⟨p, hp⟩ := not_forall.mp hcode
    have hpos : 0 < occupied set.code := Finset.card_pos.mpr
      ⟨p, Finset.mem_filter.mpr ⟨Finset.mem_univ p, Option.isSome_iff_ne_none.mpr hp⟩⟩
    obtain ⟨r, z, hz, hr⟩ := anyShred_code hpos
    obtain rfl : t = z := Option.some.inj (ht.symm.trans hz)
    rcases hG.origin (.code r) t hr with hR | ⟨⟨_, hd⟩, _⟩
    · exact hR
    · contradiction

omit [Hasher] in
/-- A recovery over reconstructed shards succeeds when it rebuilds all of them. -/
theorem recover_ok_iff {r : ReedSolomon} {shards : List (Bytes × Bool)} {res : Except RecoverError (List ℕ)}
    (ht : set.anyShred = some t) (hrec : r.reconstructData (set.shards t.erasureShard.length) = some shards)
    (hok : set.recover r = .ok (set', res)) : (∃ indexes, res = .ok indexes) ↔
      ∀ p shard, (p, shard, false) ∈ reconstructed shards → ∃ y, rebuild set.signature t p shard = .ok y := by
  rw [← rebuildAll_none_iff]
  cases recover_ends hok with
  | undecoded t' ht' hnone =>
    obtain rfl := Option.some.inj (ht.symm.trans ht')
    rw [hrec] at hnone
    contradiction
  | stopped t' out l e ht' hrec' hl =>
    obtain rfl := Option.some.inj (ht.symm.trans ht')
    obtain rfl := Option.some.inj (hrec.symm.trans hrec')
    rw [hl]
    simp
  | complete t' out l ht' hrec' hl =>
    obtain rfl := Option.some.inj (ht.symm.trans ht')
    obtain rfl := Option.some.inj (hrec.symm.trans hrec')
    rw [hl]
    exact iff_of_true ⟨_, rfl⟩ rfl

omit [Hasher] in
/-- A recovery that fails leaves the code shreds, and the set incomplete. -/
theorem Recovered.of_failed {e : RecoverError} (h : Recovered f set set' (.error e)) (hI : Inv f set) :
    set'.code = set.code ∧ set'.isComplete = false := by
  cases h with
  | failed l e hl hshort =>
    have hm := hI.toPlaced.missing_length
    have hnum := set.installAll_numData l
    refine ⟨(set.installAll_fields l).1, ?_⟩
    simp only [isComplete, hnum, dataShredsPerFecSet, decide_eq_false_iff_not]
    omega

omit [Hasher] in
/-- A recovery that rebuilds in the layout of its template only keeps the set uniform. -/
theorem Uniform.recovering (hU : set.Uniform) (hI : Inv f set) (h : SlotState.Recovering f set rs set' indexes)
    (hsound : ∀ r t shards, rs = some r → set.canRecover = true → set.anyShred = some t →
      r.reconstructData (set.shards t.erasureShard.length) = some shards →
      (∀ p shard, (p, shard, false) ∈ reconstructed shards → ∃ y, rebuild set.signature t p shard = .ok y) ∨
      set.ReconstructsVariant r t.proofSize t.resigned) (hinc : set'.isComplete = false) : set'.Uniform := by
  cases h with
  | idle _ => exact hU
  | failed r set' e hrs hc hok h =>
    obtain ⟨t, q, ht, hq, _⟩ := hI.toPlaced.anyShred hc
    apply uniform_of_template (t := t)
    intro q y hy
    cases hrec : r.reconstructData (set.shards t.erasureShard.length) with
    | none =>
      rw [recover_eq r ht, hrec] at hok
      simp only [Except.ok.injEq, Prod.mk.injEq] at hok
      rw [← hok.1] at hy
      exact hU.template ht hy
    | some shards =>
      have hkeeps := r.keeps _ _ hrec
      have hvariant : set.ReconstructsVariant r t.proofSize t.resigned := by
        refine (hsound r t shards hrs hc ht hrec).resolve_left fun hall => ?_
        -- then the recovery had not failed
        obtain ⟨indexes, hres⟩ := (recover_ok_iff ht hrec hok).mpr hall
        contradiction
      cases q with
      | code p =>
        rw [FecSet.held, (h.of_failed hI).1] at hy
        exact hU.template ht (q := .code p) hy
      | data p =>
        cases hp : set.data p with
        | some z =>
          have hyz : set'.data p = some y := hy
          rw [h.keeps hp, Option.some.injEq] at hyz
          rw [hyz] at hp
          exact hU.template ht (q := .data p) hp
        | none =>
          obtain ⟨before, shard, after, hsplit, hbefore, hre⟩ :=
            mem_rebuildAll_iff.mp ((installed_iff ht hrec hok hp).mp hy)
          have hmem : (p, shard, false) ∈ reconstructed shards := by
            rw [hsplit]
            simp
          have hlen := reconstructed_length hkeeps hmem
          have hb := rebuild_ok hre
          have hlay := (hasVariant_iff hb hlen).mp (hvariant t shards ht hrec before p shard after hsplit hbefore ⟨y, hre⟩)
          exact ⟨hb.version, Shred.erasureShard_length_eq_iff.mpr hlay,
            (Shred.parts_of_rebuilt hb hlen hlay.1 hlay.2).2⟩
  | complete r set' indexes _ _ _ h =>
    have hcomp := (h.inv hI).toPlaced.isComplete_iff.mpr h.ok.2.1
    rw [hcomp] at hinc
    contradiction

end

end FecSet

/-! ### Runs of a slot -/

namespace SlotState
variable [Hasher] {stats : Stats} {inputs : List (Shred × Option ReedSolomon)} {input : Shred × Option ReedSolomon}
  {s s' : SlotState × Stats} {out os : List Segment} {f : ℕ} {state mid : SlotState} {x y t : Shred}
  {rs : Option ReedSolomon} {fresh indexes : List ℕ} {root : Hash32} {set' : FecSet}

/-- The set `f` took in `x` somewhere in the sequence. -/
def Received (stats : Stats) (inputs : List (Shred × Option ReedSolomon)) (f : ℕ) (x : Shred) : Prop :=
  Steps.Occurs insertStep (SlotState.empty, stats)
    (fun s input => s.1.TakesIn input.1 ∧ input.1.fecSetIndex = f ∧ input.1 = x) inputs

theorem received_snoc (hrun : insertAll stats inputs = .ok (s, out)) (input : Shred × Option ReedSolomon) (f : ℕ) (y : Shred) :
    Received stats (inputs ++ [input]) f y ↔
      Received stats inputs f y ∨ s.1.TakesIn input.1 ∧ input.1.fecSetIndex = f ∧ input.1 = y :=
  Steps.occurs_snoc hrun

omit [Hasher] in
theorem setAt_of_emitting {st : SlotState} (h : Emitting mid st out) (f : ℕ) :
    st.setAt f = mid.setAt f ∨ st.setAt f = FecSet.empty ∧ st.SetConsumed f := by
  rcases h.sets f with hs | ⟨hs, hc⟩
  · exact .inl (by rw [setAt, hs, setAt])
  · exact .inr ⟨by rw [setAt, hs]; rfl, hc⟩

theorem Taken.setAt_other (h : Taken state x rs mid fresh root set' indexes) (hf : f ≠ x.fecSetIndex) :
    mid.setAt f = state.setAt f := by
  rw [setAt, h.sets, Function.update_of_ne hf, setAt]

theorem Stored.setAt_refused (h : Stored state x rs mid fresh) (hx : ¬ state.TakesIn x) (f : ℕ) :
    mid.setAt f = state.setAt f := by
  cases h with
  | dropped _ => rfl
  | turnedAway why _ _ _ _ => exact putSet_setAt state x.fecSetIndex f
  | taken mid fresh root set' indexes h => exact absurd h.takesIn hx

/-- In every state of a run, the live sets hold what they received. -/
theorem gathered (hrun : insertAll stats inputs = .ok (s, out)) (f : ℕ) (hf : ¬ s.1.SetConsumed f) :
    FecSet.Gathered (Received stats inputs f) (s.1.setAt f) := by
  refine Steps.runAll_induct (P := fun is (s : SlotState × Stats) (_ : List Segment) => ¬ s.1.SetConsumed f →
    FecSet.Gathered (Received stats is f) (s.1.setAt f)) ?_ ?_ hrun hf
  · exact fun _ => FecSet.Gathered.empty.congr fun y => iff_false_intro Steps.not_occurs_nil
  · intro is s os i s' out' hrun hP hstep hlive
    have hok := insertStep_ok.mp hstep
    have hI := insertAll_inv hrun
    obtain ⟨_, mid, fresh, _, hins⟩ := insert_spec hI (fecSetIndex_of_insert hok) hok
    have hsnoc := fun y => received_snoc hrun i f y
    have hlive₀ : ¬ s.1.SetConsumed f := fun hc => hlive fun j h1 h2 =>
      (hins.consumed_iff hI j).mpr (.inl (hc j h1 h2))
    rcases setAt_of_emitting hins.toEmitting f with hset | hset
    · rw [hset]
      by_cases hx : s.1.TakesIn i.1
      · obtain ⟨root, set', indexes, ht⟩ := hins.stored.taken_of_takesIn hx
        by_cases hfx : f = i.1.fecSetIndex
        · subst hfx
          have hIset := hI.setAt_inv i.1.fecSetIndex
          have hG := ((hP hlive₀).accepted hIset rfl ht.accepts).recovering (hIset.accepted rfl ht.accepts) ht.recovering
          rw [ht.setAt_same]
          refine hG.congr fun y => (hsnoc y).trans (or_congr_right ?_)
          exact ⟨fun h => h.2.2.symm, fun h => ⟨hx, rfl, h.symm⟩⟩
        · rw [ht.setAt_other hfx]
          refine (hP hlive₀).congr fun y => (hsnoc y).trans (or_iff_left fun h => hfx h.2.1.symm)
      · rw [hins.stored.setAt_refused hx]
        exact (hP hlive₀).congr fun y => (hsnoc y).trans (or_iff_left fun h => hx h.1)
    · exact absurd hset.2 hlive

theorem Inserted.setAt_of_incomplete {st : SlotState} (h : Inserted state x rs mid fresh st out) (hI : SlotInv state)
    (hx : x.fecSetIndex ≤ 32736) (ht : Taken state x rs mid fresh root set' indexes)
    (hI' : FecSet.Inv x.fecSetIndex set') (hinc : set'.isComplete = false) : st.setAt x.fecSetIndex = set' := by
  have hsame := ht.setAt_same
  rcases setAt_of_emitting h.toEmitting x.fecSetIndex with hst | hst
  · exact hst.trans hsame
  · exfalso
    obtain ⟨p, hp⟩ : ∃ p, set'.data p = none := by
      by_contra hno
      have hcomp := hI'.toPlaced.isComplete_iff.mpr fun p => Option.isSome_iff_ne_none.mpr fun hp => hno ⟨p, hp⟩
      rw [hcomp] at hinc
      contradiction
    have hlt := p.isLt
    have ha := x.valid.aligned
    have hrec := h.consumed_received (hst.2 (x.fecSetIndex + p) (by omega) (by omega))
    rw [h.received] at hrec
    have hmid := h.stored.assembling hx hI.toAssembling
    have hmod : x.fecSetIndex + (p : ℕ) - (x.fecSetIndex + (p : ℕ)) % 32 = x.fecSetIndex := by omega
    -- its shred would be there, or the whole set consumed before
    rcases hmid.shred _ hrec with ⟨z, hz, _⟩ | hcons
    · rw [shredAt_add _ ha, hsame, hp] at hz
      contradiction
    · rw [hmod] at hcons
      apply ht.live
      intro j h1 h2
      have hj := hcons j h1 h2
      rwa [ht.consumed] at hj

/-! ### Shreds that keep the layout of their set -/

/-- A shred that a set takes in agrees with the set's template, and a recovery that
fails half way has rebuilt shreds in the set's layout only. -/
structure KeepsLayout (state : SlotState) (x : Shred) (rs : Option ReedSolomon) : Prop where
  template : ∀ t, (state.setAt x.fecSetIndex).anyShred = some t → x.version = t.version ∧
    x.proofSize = t.proofSize ∧ x.resigned = t.resigned ∧ x.chainedMerkleRoot = t.chainedMerkleRoot
  recovery : ∀ r t shards, rs = some r → ((state.setAt x.fecSetIndex).insert x).1.canRecover = true →
    ((state.setAt x.fecSetIndex).insert x).1.anyShred = some t →
    r.reconstructData (((state.setAt x.fecSetIndex).insert x).1.shards t.erasureShard.length) = some shards →
    (∀ p shard, (p, shard, false) ∈ FecSet.reconstructed shards →
      ∃ y, FecSet.rebuild ((state.setAt x.fecSetIndex).insert x).1.signature t p shard = .ok y) ∨
    ((state.setAt x.fecSetIndex).insert x).1.ReconstructsVariant r t.proofSize t.resigned

/-- Any two shreds a set received agree, and so do any two that an incomplete set holds. -/
structure Interchangeable (stats : Stats) (inputs : List (Shred × Option ReedSolomon)) (state : SlotState) : Prop where
  received : ∀ f x y, Received stats inputs f x → Received stats inputs f y → x.SameLayout y
  held : ∀ f, (state.setAt f).isComplete = false → (state.setAt f).Uniform

theorem uniform_accepted (hU : (state.setAt x.fecSetIndex).Uniform) (hI : FecSet.Inv x.fecSetIndex (state.setAt x.fecSetIndex))
    (hacc : FecSet.Accepts (state.setAt x.fecSetIndex) x root)
    (hx : ∀ t, (state.setAt x.fecSetIndex).anyShred = some t → x.SameLayout t) :
    ((state.setAt x.fecSetIndex).accepted x root).Uniform := by
  apply FecSet.uniform_of_template (t := x)
  intro q y hy
  rcases FecSet.accepted_held hacc.needed hy with hold | ⟨_, rfl⟩
  · obtain ⟨t, ht⟩ := FecSet.anyShred_of_held hold
    obtain ⟨h1, h2, h3⟩ := hU.template ht hold
    have hxt := hx t ht
    exact ⟨h1.trans hxt.version.symm, h2.trans hxt.shardLength.symm, h3.trans hxt.chainedMerkleRoot.symm⟩
  · exact ⟨rfl, rfl, rfl⟩

theorem KeepsLayout.sameLayout (h : KeepsLayout state x rs) (ht : (state.setAt x.fecSetIndex).anyShred = some t) :
    x.SameLayout t := by
  obtain ⟨h1, h2, h3, h4⟩ := h.template t ht
  exact ⟨h1, h2, h3, Shred.erasureShard_length_eq_iff.mpr ⟨h2, h3⟩, h4⟩

/-- One call, and what a set received before goes on agreeing with what it receives now. -/
theorem Interchangeable.step (hrun : insertAll stats inputs = .ok (s, os)) (h : Interchangeable stats inputs s.1)
    (hstep : insertStep s input = .ok (s', out)) (hk : s.1.TakesIn input.1 → KeepsLayout s.1 input.1 input.2) :
    Interchangeable stats (inputs ++ [input]) s'.1 := by
  have hok := insertStep_ok.mp hstep
  have hI := insertAll_inv hrun
  obtain ⟨_, mid, fresh, _, hins⟩ := insert_spec hI (fecSetIndex_of_insert hok) hok
  have hsnoc := received_snoc hrun input
  have hheld : (∀ f, (mid.setAt f).isComplete = false → (mid.setAt f).Uniform) →
      ∀ f, (s'.1.setAt f).isComplete = false → (s'.1.setAt f).Uniform := by
    intro hmid f hinc
    rcases setAt_of_emitting hins.toEmitting f with hset | hset
    · rw [hset] at hinc ⊢
      exact hmid f hinc
    · rw [hset.1]
      exact FecSet.Uniform.empty
  by_cases hx : s.1.TakesIn input.1
  · have hkeep := hk hx
    obtain ⟨root, set', indexes, ht⟩ := hins.stored.taken_of_takesIn hx
    have hIset := hI.setAt_inv input.1.fecSetIndex
    have hinc := ht.accepts.not_complete hIset
    have hG := gathered hrun input.1.fecSetIndex ht.live
    have hold : ∀ y, Received stats inputs input.1.fecSetIndex y → input.1.SameLayout y := by
      intro y hy
      obtain ⟨t, htemplate⟩ := FecSet.anyShred_of_held (hG.held hinc y hy)
      exact (hkeep.sameLayout htemplate).trans (h.received _ t y (hG.template hinc htemplate) hy)
    refine ⟨fun f y z hy hz => ?_, hheld fun f hc => ?_⟩
    · rcases (hsnoc f y).mp hy with hy | ⟨_, hfy, rfl⟩
      · rcases (hsnoc f z).mp hz with hz | ⟨_, hfz, rfl⟩
        · exact h.received f y z hy hz
        · exact (hold y (hfz ▸ hy)).symm
      · rcases (hsnoc f z).mp hz with hz | ⟨_, hfz, rfl⟩
        · exact hold z (hfy ▸ hz)
        · exact Shred.SameLayout.refl _
    · by_cases hf : f = input.1.fecSetIndex
      · subst hf
        rw [ht.setAt_same] at hc ⊢
        have hU := uniform_accepted (h.held _ hinc) hIset ht.accepts fun t htemplate => hkeep.sameLayout htemplate
        have hset : ((s.1.setAt input.1.fecSetIndex).insert input.1).1 = (s.1.setAt input.1.fecSetIndex).accepted input.1 root := by
          rw [FecSet.insert_of_accepts ht.accepts]
        have hsound := hkeep.recovery
        rw [hset] at hsound
        exact hU.recovering (hIset.accepted rfl ht.accepts) ht.recovering hsound hc
      · rw [ht.setAt_other hf] at hc ⊢
        exact h.held f hc
  · refine ⟨fun f y z hy hz => ?_, hheld fun f hc => ?_⟩
    · have hy := ((hsnoc f y).mp hy).resolve_right fun hn => hx hn.1
      have hz := ((hsnoc f z).mp hz).resolve_right fun hn => hx hn.1
      exact h.received f y z hy hz
    · rw [hins.stored.setAt_refused hx] at hc ⊢
      exact h.held f hc

/-- A call that leaves such a state behind kept to the layout of its set. -/
theorem Interchangeable.keepsLayout (hrun : insertAll stats inputs = .ok (s, os)) (hstep : insertStep s input = .ok (s', out))
    (h : Interchangeable stats (inputs ++ [input]) s'.1) (hx : s.1.TakesIn input.1) :
    KeepsLayout s.1 input.1 input.2 := by
  have hok := insertStep_ok.mp hstep
  have hI := insertAll_inv hrun
  obtain ⟨_, mid, fresh, _, hins⟩ := insert_spec hI (fecSetIndex_of_insert hok) hok
  have hsnoc := received_snoc hrun input
  obtain ⟨root, set', indexes, ht⟩ := hins.stored.taken_of_takesIn hx
  have hIset := hI.setAt_inv input.1.fecSetIndex
  have hIacc := hIset.accepted rfl ht.accepts
  have hG := gathered hrun input.1.fecSetIndex ht.live
  have hset : ((s.1.setAt input.1.fecSetIndex).insert input.1).1 = (s.1.setAt input.1.fecSetIndex).accepted input.1 root := by
    rw [FecSet.insert_of_accepts ht.accepts]
  refine ⟨fun t htemplate => ?_, fun r t shards hrs hc htemplate hrec => ?_⟩
  · have hRt := hG.template (ht.accepts.not_complete hIset) htemplate
    have hsame := h.received input.1.fecSetIndex input.1 t ((hsnoc _ _).mpr (.inr ⟨hx, rfl, rfl⟩)) ((hsnoc _ _).mpr (.inl hRt))
    exact ⟨hsame.version, hsame.proofSize, hsame.resigned, hsame.chainedMerkleRoot⟩
  · rw [hset] at hc htemplate hrec ⊢
    by_cases hall : ∀ p shard, (p, shard, false) ∈ FecSet.reconstructed shards →
        ∃ y, FecSet.rebuild ((s.1.setAt input.1.fecSetIndex).accepted input.1 root).signature t p shard = .ok y
    · exact .inl hall
    · right
      intro t' shards' ht' hrec' before p shard after hsplit hbefore ⟨y, hy⟩
      obtain rfl : t = t' := Option.some.inj (htemplate.symm.trans ht')
      obtain rfl : shards = shards' := Option.some.inj (hrec.symm.trans hrec')
      have hkeeps := r.keeps _ _ hrec
      have hmem : (p, shard, false) ∈ FecSet.reconstructed shards := by
        rw [hsplit]
        simp
      have hnone : ((s.1.setAt input.1.fecSetIndex).accepted input.1 root).data p = none := by
        have hflag := FecSet.reconstructed_flag hkeeps hmem
        simpa using hflag.symm
      -- the recovery failed, so the set stays, with this shred in it
      obtain ⟨after', res, hok', _⟩ := FecSet.recover_cases hIacc hc r
      obtain ⟨rfl, hfailed, hends⟩ := ht.recovering.of_recover hrs hc hok'
      obtain ⟨e, rfl⟩ : ∃ e, res = .error e := by
        rcases hends with ⟨he, _⟩ | hres
        · exact he
        · exact absurd ((FecSet.recover_ok_iff htemplate hrec hok').mp ⟨indexes, hres⟩) hall
      obtain ⟨hcode, hinc⟩ := hfailed.of_failed hIacc
      have hinst := (FecSet.installed_iff htemplate hrec hok' hnone).mpr
        (FecSet.mem_rebuildAll_iff.mpr ⟨before, shard, after, hsplit, hbefore, hy⟩)
      have hstays := hins.setAt_of_incomplete hI (fecSetIndex_of_insert hok) ht (hfailed.inv hIacc) hinc
      have hU := h.held input.1.fecSetIndex (by rw [hstays]; exact hinc)
      rw [hstays] at hU
      obtain ⟨p₀, z, hz⟩ := FecSet.code_of_canRecover hIacc hc
      obtain ⟨q, t₀, ht₀, hq⟩ := FecSet.anyShred_code (Finset.card_pos.mpr
        ⟨p₀, Finset.mem_filter.mpr ⟨Finset.mem_univ p₀, by rw [hz]; rfl⟩⟩)
      obtain rfl : t = t₀ := Option.some.inj (htemplate.symm.trans ht₀)
      have hheld : set'.held (.code q) = some t := by
        rw [FecSet.held, hcode]
        exact hq
      have hlay := Shred.erasureShard_length_eq_iff.mp (hU (.data p) (.code q) y t hinst hheld).2.1
      exact (FecSet.hasVariant_iff (FecSet.rebuild_ok hy) (FecSet.reconstructed_length hkeeps hmem)).mpr hlay

/-- In every state of the run the shreds of a set are interchangeable as templates, and
so they are where a call may recover, with the shred it just took in. -/
structure TemplatesAgree (stats : Stats) (inputs : List (Shred × Option ReedSolomon)) : Prop where
  states : ∀ before after s out, inputs = before ++ after → insertAll stats before = .ok (s, out) →
    Interchangeable stats before s.1
  recoveries : ∀ before input after s out s' out', inputs = before ++ input :: after →
    insertAll stats before = .ok (s, out) → insertStep s input = .ok (s', out') → s.1.TakesIn input.1 →
    ((s.1.setAt input.1.fecSetIndex).insert input.1).1.Uniform

theorem Interchangeable.empty (stats : Stats) : Interchangeable stats [] SlotState.empty where
  received _ _ _ hx := absurd hx Steps.not_occurs_nil
  held _ _ := FecSet.Uniform.empty

/-- Which shred of a set serves as the template makes no difference in any state of a
run exactly when every call of the run keeps to the layout of its set. -/
theorem templatesAgree_iff (stats : Stats) (inputs : List (Shred × Option ReedSolomon)) :
    TemplatesAgree stats inputs ↔ ∀ before input after s out, inputs = before ++ input :: after →
      insertAll stats before = .ok (s, out) → ∀ s' out', insertStep s input = .ok (s', out') →
      s.1.TakesIn input.1 → KeepsLayout s.1 input.1 input.2 := by
  constructor
  · intro h before input after s out heq hrun s' out' hstep hx
    have hrun' : insertAll stats (before ++ [input]) = .ok (s', out ++ out') :=
      Steps.runAll_snoc_ok.mpr ⟨s, out, out', hrun, hstep, rfl⟩
    exact (h.states (before ++ [input]) after s' _ (by simp [heq]) hrun').keepsLayout hrun hstep hx
  · intro h
    have hstates : ∀ before after s out, inputs = before ++ after → insertAll stats before = .ok (s, out) →
        Interchangeable stats before s.1 := by
      intro before after s out heq hrun
      refine Steps.runAll_induct (P := fun is (s : SlotState × Stats) (_ : List Segment) =>
        (∃ rest, inputs = is ++ rest) → Interchangeable stats is s.1) (fun _ => Interchangeable.empty stats) ?_ hrun
        ⟨after, heq⟩
      intro is s os i s' out' hrun hP hstep ⟨rest, hrest⟩
      have heq' : inputs = is ++ i :: rest := by simp [hrest]
      exact (hP ⟨_, heq'⟩).step hrun hstep (h is i rest s os heq' hrun s' out' hstep)
    refine ⟨hstates, fun before input after s out s' out' heq hrun hstep hx => ?_⟩
    have hI := insertAll_inv hrun
    have hok := insertStep_ok.mp hstep
    obtain ⟨_, mid, fresh, _, hins⟩ := insert_spec hI (fecSetIndex_of_insert hok) hok
    obtain ⟨root, set', indexes, ht⟩ := hins.stored.taken_of_takesIn hx
    have hIset := hI.setAt_inv input.1.fecSetIndex
    have hkeep := h before input after s out heq hrun s' out' hstep hx
    rw [FecSet.insert_of_accepts ht.accepts]
    exact uniform_accepted ((hstates before _ s out heq hrun).held _ (ht.accepts.not_complete hIset)) hIset ht.accepts
      fun t htemplate => hkeep.sameLayout htemplate

end SlotState

/-! ### Two shreds of one set, of different versions -/

section
open SlotState (Received)
variable [Hasher]

theorem received_of_fed {S : LeaderSet} {f : ℕ} {root : Hash32} {signature : Signature} {order : List Position}
    (hS : ∀ q ∈ order, S.Sealed f root signature q) (hf : f ≤ 32736) (hnd : order.Nodup) (hlen : order.length < 32)
    {p : Fin 32} (hp : .data p ∉ order) (stats : Stats) (rs : Option ReedSolomon) {q : Position} (hq : q ∈ order) :
    Received stats (order.map fun q => (S.shred q, rs)) f (S.shred q) := by
  obtain ⟨before, after, rfl⟩ := List.append_of_mem hq
  obtain ⟨hndb, hqb⟩ := nodup_before hnd
  have hpb : .data p ∉ before := fun hmem => hp (List.mem_append_left _ hmem)
  have hlenb : before.length < 32 := by
    rw [List.length_append] at hlen
    omega
  obtain ⟨s, out, hrun, hfed⟩ := insertAll_fed (fun r hr => hS r (List.mem_append_left _ hr)) hf hndb hlenb hpb stats rs
  have hI := SlotState.insertAll_inv hrun
  have hSq := hS q hq
  have hset : (S.shred q).fecSetIndex ≤ 32736 := by
    rw [hSq.fecSetIndex]
    exact hf
  obtain ⟨_, _, _, _, hst⟩ := SlotState.store_cases hI.toAssembling hset rs stats
  obtain ⟨set', indexes, ht⟩ := hfed.taken hI hSq rfl hqb (by rwa [List.mem_toFinset]) hst
  exact ⟨before.map fun q => (S.shred q, rs), (S.shred q, rs), after.map fun q => (S.shred q, rs), s, out, by simp,
    hrun, ht.takesIn, hSq.fecSetIndex, rfl⟩

omit [Hasher] in
/-- Two shreds under one root and one signature; the set takes in both. -/
theorem mixedSet_versions_received :
    let S := @mixedSet sha256Hasher
    let inputs : List (Shred × Option ReedSolomon) := [(S.data 0, none), (S.data 1, none)]
    ∃ s out, @SlotState.insertAll sha256Hasher Stats.default inputs = .ok (s, out) ∧
      @Received sha256Hasher Stats.default inputs 0 (S.data 0) ∧
      @Received sha256Hasher Stats.default inputs 0 (S.data 1) ∧ (S.data 0).version ≠ (S.data 1).version := by
  intro S inputs
  have hS := @SetDraft.sealedSet_sealed _ sha256Hasher mixedDraft_valid
  obtain ⟨s, out, hrun, _⟩ := @insertAll_fed sha256Hasher S 0 _ mixedDraft.signature [.data 0, .data 1] (fun q _ => hS q)
    (by decide) (by decide) (by decide) 2 (by decide) Stats.default none
  have hreceived := fun q hq => @received_of_fed sha256Hasher S 0 _ mixedDraft.signature [.data 0, .data 1]
    (fun q _ => hS q) (by decide) (by decide) (by decide) 2 (by decide) Stats.default none q hq
  refine ⟨s, out, hrun, hreceived (.data 0) (by decide), hreceived (.data 1) (by decide), ?_⟩
  have hver := (@mixedSet_version sha256Hasher).1
  rw [hver, hver]
  decide

end
end Deshred
