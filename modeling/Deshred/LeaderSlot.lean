import Deshred.LeaderFec
import Deshred.SlotRuns

/-!
# A slot fed with a leader's block

The received bits of the slot are exactly the data shreds that arrived or that 32
arrivals of their set make recoverable, and what is held there carries the leader's
data.
-/

namespace Deshred

/-- A leader's block for one slot: its FEC sets, by set index. -/
abbrev Block := ℕ → Option LeaderSet

/- Enough arrived for all data shreds of the set to be there. -/
def Ready (recover : Bool) (A : Finset Position) : Prop :=
  (∀ p, Position.data p ∈ A) ∨ recover = true ∧ 32 ≤ A.card

/- The data shred at `p` is there. -/
def Present (recover : Bool) (A : Finset Position) (p : Fin 32) : Prop :=
  Position.data p ∈ A ∨ recover = true ∧ 32 ≤ A.card

theorem Ready.present {recover : Bool} {A : Finset Position} (h : Ready recover A) (p : Fin 32) :
    Present recover A p := h.imp (fun h => h p) id

theorem Ready.mono {recover : Bool} {A B : Finset Position} (h : Ready recover A) (hAB : A ⊆ B) :
    Ready recover B :=
  h.imp (fun h p => hAB (h p)) fun ⟨hr, hc⟩ => ⟨hr, hc.trans (Finset.card_le_card hAB)⟩

theorem Present.mono {recover : Bool} {A B : Finset Position} {p : Fin 32} (h : Present recover A p) (hAB : A ⊆ B) :
    Present recover B p :=
  h.imp (fun h => hAB h) fun ⟨hr, hc⟩ => ⟨hr, hc.trans (Finset.card_le_card hAB)⟩

theorem ready_of_present {recover : Bool} {A : Finset Position} (h : ∀ p, Present recover A p) :
    Ready recover A := by
  by_cases hr : recover = true ∧ 32 ≤ A.card
  · exact .inr hr
  · exact .inl fun p => (h p).resolve_right hr

theorem Ready.recovered {recover : Bool} {A : Finset Position} (h : ¬ Ready recover A) :
    ¬ (recover = true ∧ 32 ≤ A.card) := fun hr => h (.inr hr)

namespace Block

def place (i : ℕ) : Fin 32 := ⟨i % 32, Position.mod_lt _⟩

/- The leader's data shred at an index. -/
def shredAt (B : Block) (i : ℕ) : Option Shred := (B (i - i % 32)).map fun S => S.data (place i)

/-- The data shred at `i` is among the arrivals `A`, or they are enough to recover it. -/
def Available (B : Block) (recover : Bool) (A : ℕ → Finset Position) (i : ℕ) : Prop :=
  (B (i - i % 32)).isSome ∧ Present recover (A (i - i % 32)) (place i)

def Consistent [Hasher] (B : Block) (Codeword : List Bytes → Prop) (slot version : ℕ) : Prop :=
  ∀ f S, B f = some S → S.Consistent Codeword slot version f

/- As above, but each set has a version of its own. -/
def ConsistentSets [Hasher] (B : Block) (Codeword : List Bytes → Prop) (slot : ℕ) : Prop :=
  ∀ f S, B f = some S → ∃ version, S.Consistent Codeword slot version f

theorem Consistent.sets [Hasher] {B : Block} {Codeword : List Bytes → Prop} {slot version : ℕ}
    (h : B.Consistent Codeword slot version) : B.ConsistentSets Codeword slot := fun f S hf => ⟨version, h f S hf⟩

/- `x` is one of the block's shreds. -/
def Sends (B : Block) (x : Shred) : Prop := ∃ S, B x.fecSetIndex = some S ∧ S.shred x.position = x

theorem place_add {f : ℕ} (hf : f % 32 = 0) (p : Fin 32) :
    f + p - (f + p) % 32 = f ∧ place (f + p) = p := by
  have hp := p.isLt
  have hmod : (f + p) % 32 = p := by omega
  exact ⟨by omega, Fin.ext hmod⟩

theorem place_eq (i : ℕ) : i = i - i % 32 + (place i : ℕ) := by
  simp only [place]
  omega

theorem shredAt_add {B : Block} {f : ℕ} {S : LeaderSet} (h : B f = some S) (hf : f % 32 = 0) (p : Fin 32) :
    B.shredAt (f + p) = some (S.data p) := by
  obtain ⟨h1, h2⟩ := place_add hf p
  simp only [shredAt, h1, h2, h, Option.map_some]

end Block

section
variable [Hasher]

/-- What a set of the slot holds, given what arrived of it. -/
structure SetTracks (S : LeaderSet) (f : ℕ) (recover : Bool) (A : Finset Position) (set : FecSet) : Prop where
  waiting : ¬ Ready recover A → ∀ root, (∀ q, S.Sealed f root (S.data 0).signature q) →
    S.Holding root (S.data 0).signature A set
  full : Ready recover A → ∀ p, ∃ y, set.data p = some y ∧ Shred.Twin (S.data p) y

/-- What the slot holds, given what arrived. -/
structure Tracks (B : Block) (recover : Bool) (A : ℕ → Finset Position) (state : SlotState) : Prop where
  sets : ∀ f S, B f = some S → ¬ state.SetConsumed f → SetTracks S f recover (A f) (state.setAt f)
  received : ∀ i, i ∈ state.received.ones ↔ B.Available recover A i
  complete : ∀ i x, B.shredAt i = some x →
    (i ∈ state.complete.ones ↔ i ∈ state.received.ones ∧ x.dataComplete = true)

variable {B : Block} {recover : Bool} {A : ℕ → Finset Position} {state mid : SlotState} {x : Shred}
  {S : LeaderSet} {f : ℕ} {Codeword : List Bytes → Prop} {slot version : ℕ} {rs : Option ReedSolomon}
  {fresh : List ℕ}

theorem Tracks.empty (B : Block) (recover : Bool) : Tracks B recover (fun _ => ∅) SlotState.empty where
  sets f S _ _ := by
    refine ⟨fun _ root _ => LeaderSet.Holding.empty, fun h => ?_⟩
    rcases h with h | h
    · exact absurd (h 0) (by simp)
    · exact absurd h.2 (by simp)
  received i := by
    simp [SlotState.empty, Block.Available, Present]
  complete i x _ := by simp [SlotState.empty]

theorem SetTracks.twin (hS : S.Consistent Codeword slot version f) {A : Finset Position} {set : FecSet}
    (h : SetTracks S f recover A set) {p : Fin 32} {y : Shred} (hy : set.data p = some y) :
    Shred.Twin (S.data p) y := by
  by_cases hr : Ready recover A
  · obtain ⟨z, hz, htwin⟩ := h.full hr p
    rw [hz, Option.some.injEq] at hy
    exact hy ▸ htwin
  · obtain ⟨root, hroot⟩ := hS.sealed
    have hd := (h.waiting hr root hroot).data p
    rw [hy] at hd
    split at hd
    · rw [Option.some.injEq] at hd
      rw [hd]
      exact Shred.Twin.refl _
    · contradiction

theorem Tracks.present_iff (h : Tracks B recover A state) (hB : B f = some S) (hf : f % 32 = 0) (p : Fin 32) :
    f + p ∈ state.received.ones ↔ Present recover (A f) p := by
  obtain ⟨h1, h2⟩ := Block.place_add hf p
  rw [h.received, Block.Available, h1, h2, hB]
  simp

/-- A set with a data shred missing has an index that was not emitted. -/
theorem Tracks.live (hI : state.SlotInv) (h : Tracks B recover A state) (hB : B f = some S) (hf : f % 32 = 0)
    (hr : ¬ Ready recover (A f)) : ¬ state.SetConsumed f := by
  intro hc
  refine hr (ready_of_present fun p => (h.present_iff hB hf p).mp (hI.consumed_received ?_))
  have hp := p.isLt
  exact hc _ (by omega) (by omega)

/-- The state of one set after a shred of it was stored. -/
structure Grown (S : LeaderSet) (f : ℕ) (recover : Bool) (A : Finset Position) (mid : SlotState) : Prop where
  tracks : SetTracks S f recover A (mid.setAt f)
  received : ∀ p : Fin 32, f + p ∈ mid.received.ones ↔ Present recover A p

section
variable {root : Hash32} {set' : FecSet} {indexes : List ℕ}

theorem SlotState.Taken.setAt_same (h : SlotState.Taken state x rs mid fresh root set' indexes) :
    mid.setAt x.fecSetIndex = set' := by
  rw [SlotState.setAt, h.sets, Function.update_self, Option.getD_some]

theorem SlotState.Taken.received_plain (h : SlotState.Taken state x rs mid fresh root set' []) (p : Fin 32) :
    x.fecSetIndex + p ∈ mid.received.ones ↔
      x.fecSetIndex + p ∈ state.received.ones ∨ x.position = .data p := by
  rw [h.received, h.fresh_eq, List.append_nil]
  apply or_congr_right
  cases hp : x.position with
  | data q =>
    have hpos := x.position_data hp
    rw [if_pos (x.isData_iff.mpr hpos.1), List.mem_singleton, hpos.2.1, Position.data.injEq]
    constructor
    · intro he
      exact Fin.ext (by omega)
    · intro he
      rw [he]
  | code q =>
    have hk := (x.position_code hp).1
    have hd : ¬ x.isData = true := by
      rw [x.isData_iff, hk]
      simp
    simp [hd]

end

/-- A set that is already full stays full, whatever arrives. -/
theorem grown_of_ready (hI : state.SlotInv) (h : Tracks B recover A state) (hB : B x.fecSetIndex = some S)
    (hr : Ready recover (A x.fecSetIndex)) (hlive : ¬ state.SetConsumed x.fecSetIndex)
    (hst : SlotState.Stored state x rs mid fresh) :
    Grown S x.fecSetIndex recover (insert x.position (A x.fecSetIndex)) mid := by
  have ha := x.valid.aligned
  have hr' : Ready recover (insert x.position (A x.fecSetIndex)) := hr.mono (Finset.subset_insert ..)
  refine ⟨⟨fun hno => absurd hr' hno, fun _ p => ?_⟩, fun p => ?_⟩
  · obtain ⟨y, hy, htwin⟩ := (h.sets _ S hB hlive).full hr p
    refine ⟨y, ?_, htwin⟩
    cases hst with
    | dropped _ => exact hy
    | turnedAway why _ _ _ _ => rwa [SlotState.putSet_setAt]
    | taken _ _ root set' indexes ht =>
      rw [← SlotState.shredAt_add _ ha]
      exact ht.shredAt_mono (by rwa [SlotState.shredAt_add _ ha])
  · have hin := (h.present_iff hB ha p).mpr (hr.present p)
    exact ⟨fun _ => hr'.present p, fun _ => ((hst.marks hI.toAssembling).received _).mpr (.inl hin)⟩

theorem grown_of_seen (hI : state.SlotInv) (h : Tracks B recover A state) (hB : B x.fecSetIndex = some S)
    (hS : S.Consistent Codeword slot version x.fecSetIndex) (hr : ¬ Ready recover (A x.fecSetIndex))
    (hq : x.position ∈ A x.fecSetIndex) (hst : SlotState.Stored state x rs mid fresh) :
    Grown S x.fecSetIndex recover (insert x.position (A x.fecSetIndex)) mid := by
  have ha := x.valid.aligned
  have hlive := h.live hI hB ha hr
  obtain ⟨root, hroot⟩ := hS.sealed
  have hhold := (h.sets _ S hB hlive).waiting hr root hroot
  rw [Finset.insert_eq_of_mem hq]
  cases hst with
  | dropped _ => exact ⟨h.sets _ S hB hlive, fun p => h.present_iff hB ha p⟩
  | turnedAway why _ _ _ _ =>
    refine ⟨?_, fun p => h.present_iff hB ha p⟩
    rw [SlotState.putSet_setAt]
    exact h.sets _ S hB hlive
  | taken _ _ root' set' indexes ht =>
    have hnone := ht.accepts.fresh
    rw [FecSet.get_eq, hhold.held, if_pos hq] at hnone
    contradiction

theorem taken_of_new (hI : state.SlotInv) (h : Tracks B recover A state) (hB : B x.fecSetIndex = some S)
    {root : Hash32} (hroot : ∀ q, S.Sealed x.fecSetIndex root (S.data 0).signature q) (hx : S.shred x.position = x)
    (hr : ¬ Ready recover (A x.fecSetIndex)) (hq : x.position ∉ A x.fecSetIndex)
    (hst : SlotState.Stored state x rs mid fresh) :
    ∃ set' indexes, SlotState.Taken state x rs mid fresh root set' indexes := by
  have ha := x.valid.aligned
  have hlive := h.live hI hB ha hr
  have hhold := (h.sets _ S hB hlive).waiting hr root hroot
  obtain ⟨p, hp⟩ : ∃ p, Position.data p ∉ A x.fecSetIndex := by
    by_contra hall
    exact hr (.inl fun p => by_contra fun hp => hall ⟨p, hp⟩)
  have hacc := hhold.accepts (hroot _) hq (hhold.not_complete (hI.setAt_inv _) hp)
  rw [hx] at hacc
  refine hst.taken_of_accepts (fun hk hrec => ?_) (fun _ => hlive) hacc
  obtain ⟨r, hpos⟩ := x.exists_position_data hk
  rw [(x.position_data hpos).2.1, h.present_iff hB ha] at hrec
  rw [hpos] at hq
  exact hrec.elim hq (Ready.recovered hr)

theorem received_full {root : Hash32} {set' : FecSet} {indexes : List ℕ}
    (ht : SlotState.Taken state x rs mid fresh root set' indexes) (h : Tracks B recover A state)
    (hB : B x.fecSetIndex = some S) {p : Fin 32}
    (hp : .data p ∈ insert x.position (A x.fecSetIndex) ∨ x.fecSetIndex + (p : ℕ) ∈ indexes) :
    x.fecSetIndex + p ∈ mid.received.ones := by
  have ha := x.valid.aligned
  rw [ht.received, ht.fresh_eq]
  rcases hp with hp | hp
  · rcases Finset.mem_insert.mp hp with hp | hp
    · have hpos := x.position_data hp.symm
      refine .inr (List.mem_append_left _ ?_)
      rw [if_pos (x.isData_iff.mpr hpos.1), hpos.2.1]
      exact List.mem_singleton.mpr rfl
    · exact .inl ((h.present_iff hB ha p).mpr (.inl hp))
  · exact .inr (List.mem_append_right _ hp)

/-- A new shred of a waiting set: the set goes on waiting, has its last data shred, or
has enough shreds to recover the others. -/
theorem grown_of_new (hI : state.SlotInv) (h : Tracks B recover A state) (hB : B x.fecSetIndex = some S)
    (hS : S.Consistent Codeword slot version x.fecSetIndex) (hx : S.shred x.position = x)
    (hrs : ∀ r, rs = some r → recover = true ∧ r.Rebuilds Codeword) (hsome : recover = true → rs ≠ none)
    (hr : ¬ Ready recover (A x.fecSetIndex)) (hq : x.position ∉ A x.fecSetIndex)
    (hst : SlotState.Stored state x rs mid fresh) :
    Grown S x.fecSetIndex recover (insert x.position (A x.fecSetIndex)) mid := by
  have ha := x.valid.aligned
  obtain ⟨root, hroot⟩ := hS.sealed
  have hhold := (h.sets _ S hB (h.live hI hB ha hr)).waiting hr root hroot
  obtain ⟨set', indexes, ht⟩ := taken_of_new hI h hB hroot hx hr hq hst
  have hIset := hI.setAt_inv x.fecSetIndex
  have hacc := ht.accepts
  have hIacc := hIset.accepted rfl hacc
  have hheld := @LeaderSet.Holding.accepted_data _ _ _ _ _ _ _ hhold x.position (hroot _)
  rw [hx] at hheld
  have hrec := ht.recovering
  have hset := ht.setAt_same
  by_cases hall : ∀ p, Position.data p ∈ insert x.position (A x.fecSetIndex)
  · -- the last data shred
    have hr' : Ready recover (insert x.position (A x.fecSetIndex)) := .inl hall
    refine ⟨⟨fun hno => absurd hr' hno, fun _ p => ?_⟩, fun p => ?_⟩
    · rw [hset]
      exact ⟨S.data p, hrec.keeps (hheld hacc (hall p)), Shred.Twin.refl _⟩
    · exact ⟨fun _ => hr'.present p, fun _ => received_full ht h hB (.inl (hall p))⟩
  · obtain ⟨p₀, hp₀⟩ := not_forall.mp hall
    have hhold' := hhold.accepted (hroot _) hIset hq hp₀
    rw [hx] at hhold'
    have hcan := hhold'.canRecover_iff hIacc hp₀
    by_cases hc : recover = true ∧ 32 ≤ (insert x.position (A x.fecSetIndex)).card
    · have hr' : Ready recover (insert x.position (A x.fecSetIndex)) := .inr hc
      obtain ⟨r, hrsome⟩ := Option.ne_none_iff_exists'.mp (hsome hc.1)
      have hcanr := hcan.mpr hc.2
      obtain ⟨full, hok, hfull⟩ := hhold'.recover hS hIacc (hrs r hrsome).2 hcanr
      -- so this is how the recovery in `insert` ended
      have hend : set' = full ∧ indexes =
          ((state.setAt x.fecSetIndex).accepted x root).missing.map fun p : Fin 32 => x.fecSetIndex + (p : ℕ) := by
        obtain ⟨hfull, _, ⟨⟨e, hres⟩, _⟩ | hres⟩ := hrec.of_recover hrsome hcanr hok
        · contradiction
        · exact ⟨hfull, (Except.ok.inj hres).symm⟩
      refine ⟨⟨fun hno => absurd hr' hno, fun _ p => ?_⟩, fun p => ⟨fun _ => hr'.present p, fun _ => ?_⟩⟩
      · rw [hset, hend.1]
        exact hfull p
      · apply received_full ht h hB
        by_cases hp : Position.data p ∈ insert x.position (A x.fecSetIndex)
        · exact .inl hp
        · right
          rw [hend.2]
          refine List.mem_map.mpr ⟨p, FecSet.mem_missing.mpr ?_, rfl⟩
          rw [hhold'.data, if_neg hp]
    · have hr' : ¬ Ready recover (insert x.position (A x.fecSetIndex)) := fun hr' => hr'.elim hall hc
      have hidle : set' = (state.setAt x.fecSetIndex).accepted x root ∧ indexes = [] := by
        apply hrec.of_idle
        intro r hrsome
        rw [← Bool.not_eq_true]
        exact fun hcanr => hc ⟨(hrs r hrsome).1, hcan.mp hcanr⟩
      obtain ⟨rfl, rfl⟩ := hidle
      refine ⟨⟨fun _ root' hroot' => ?_, fun hyes => absurd hyes hr'⟩, fun p => ?_⟩
      · obtain rfl : root = root' :=
          Option.some.inj ((hroot x.position).merkleRoot.symm.trans (hroot' x.position).merkleRoot)
        rw [hset]
        exact hhold'
      · rw [ht.received_plain, h.present_iff hB ha]
        simp only [Present, Finset.mem_insert, hc, or_false]
        constructor
        · intro hp
          rcases hp with hp | hp
          · exact .inr (hp.resolve_right (Ready.recovered hr))
          · exact .inl hp.symm
        · intro hp
          rcases hp with hp | hp
          · exact .inr hp.symm
          · exact .inl (.inl hp)

/-! ### One call -/

omit [Hasher] in
theorem index_split (i : ℕ) : ∃ p : Fin 32, i = i - i % 32 + (p : ℕ) := ⟨Block.place i, Block.place_eq i⟩

/- A call only touches the set of its shred. -/
theorem SlotState.Stored.fresh_set (hst : SlotState.Stored state x rs mid fresh) : ∀ i ∈ fresh, i - i % 32 = x.fecSetIndex := by
  have ha := x.valid.aligned
  cases hst with
  | dropped _ => simp
  | turnedAway why _ _ _ _ => simp
  | taken mid fresh root set' indexes ht =>
    intro i hi
    obtain ⟨p, heq, _⟩ := ht.fresh_at i hi
    have hp := p.isLt
    omega

theorem SlotState.Stored.setAt_other (hst : SlotState.Stored state x rs mid fresh) {g : ℕ} (hg : g ≠ x.fecSetIndex) :
    mid.setAt g = state.setAt g := by
  cases hst with
  | dropped _ => rfl
  | turnedAway why _ _ _ _ => exact SlotState.putSet_setAt ..
  | taken mid fresh root set' indexes ht => rw [SlotState.setAt, ht.sets, Function.update_of_ne hg, SlotState.setAt]

theorem Tracks.grown (hI : state.SlotInv) (h : Tracks B recover A state) (hB : B x.fecSetIndex = some S)
    (hS : S.Consistent Codeword slot version x.fecSetIndex) (hx : S.shred x.position = x)
    (hrs : ∀ r, rs = some r → recover = true ∧ r.Rebuilds Codeword) (hsome : recover = true → rs ≠ none)
    (hlive : ¬ state.SetConsumed x.fecSetIndex) (hst : SlotState.Stored state x rs mid fresh) :
    Grown S x.fecSetIndex recover (insert x.position (A x.fecSetIndex)) mid := by
  by_cases hr : Ready recover (A x.fecSetIndex)
  · exact grown_of_ready hI h hB hr hlive hst
  · by_cases hq : x.position ∈ A x.fecSetIndex
    · exact grown_of_seen hI h hB hS hr hq hst
    · exact grown_of_new hI h hB hS hx hrs hsome hr hq hst

/- The arrivals after `x`. -/
def arrive (A : ℕ → Finset Position) (x : Shred) : ℕ → Finset Position :=
  Function.update A x.fecSetIndex (insert x.position (A x.fecSetIndex))

theorem Tracks.stored (hI : state.SlotInv) (h : Tracks B recover A state)
    (hB : B.ConsistentSets Codeword slot) (hx : B.Sends x)
    (hrs : ∀ r, rs = some r → recover = true ∧ r.Rebuilds Codeword) (hsome : recover = true → rs ≠ none)
    (hst : SlotState.Stored state x rs mid fresh) : Tracks B recover (arrive A x) mid := by
  obtain ⟨S, hBx, hxS⟩ := hx
  obtain ⟨version, hS⟩ := hB _ S hBx
  have ha := x.valid.aligned
  have hmarks := hst.marks hI.toAssembling
  have hmid := hst.assembling hS.inRange hI.toAssembling
  have hself : arrive A x x.fecSetIndex = insert x.position (A x.fecSetIndex) := Function.update_self ..
  have hsets : ∀ f S, B f = some S → ¬ mid.SetConsumed f → SetTracks S f recover (arrive A x f) (mid.setAt f) := by
    intro f S' hf hlive
    have hlive' : ¬ state.SetConsumed f := by
      intro hc
      apply hlive
      intro j h1 h2
      rw [hmarks.consumed]
      exact hc j h1 h2
    by_cases hfx : f = x.fecSetIndex
    · subst hfx
      obtain rfl : S' = S := Option.some.inj (hf.symm.trans hBx)
      rw [hself]
      exact (h.grown hI hBx hS hxS hrs hsome hlive' hst).tracks
    · rw [hst.setAt_other hfx, arrive, Function.update_of_ne hfx]
      exact h.sets f S' hf hlive'
  have hreceived : ∀ i, i ∈ mid.received.ones ↔ B.Available recover (arrive A x) i := by
    intro i
    by_cases hi : i - i % 32 = x.fecSetIndex
    · obtain ⟨p, hp⟩ := index_split i
      rw [hi] at hp
      obtain ⟨h1, h2⟩ := Block.place_add ha p
      rw [hp, Block.Available, h1, h2, hBx, hself]
      simp only [Option.isSome_some, true_and]
      by_cases hlive : state.SetConsumed x.fecSetIndex
      · -- all of the set was there already
        have hold : x.fecSetIndex + (p : ℕ) ∈ state.received.ones := by
          have hplt := p.isLt
          exact hI.consumed_received (hlive _ (by omega) (by omega))
        have hpres := (h.present_iff hBx ha p).mp hold
        exact ⟨fun _ => hpres.mono (Finset.subset_insert ..), fun _ => (hmarks.received _).mpr (.inl hold)⟩
      · exact (h.grown hI hBx hS hxS hrs hsome hlive hst).received p
    · have hno : i ∉ fresh := fun hf => hi (hst.fresh_set i hf)
      rw [hmarks.received, h.received, Block.Available, Block.Available, arrive, Function.update_of_ne hi]
      simp [hno]
  refine ⟨hsets, hreceived, fun i z hz => ?_⟩
  by_cases hr : i ∈ mid.received.ones
  · simp only [hr, true_and]
    rcases (hmarks.received i).mp hr with hold | hfresh
    · have hleader := h.complete i z hz
      simp only [hold, true_and] at hleader
      rw [← hleader]
      exact ⟨fun hc => hmarks.complete_old i hc hold, fun hc => hmarks.complete_mono hc⟩
    · -- a fresh shred is there, and is a twin of the leader's
      have hset := hst.fresh_set i hfresh
      have hcons : i ∉ mid.consumed.ones := by
        rw [hmarks.consumed]
        exact fun hc => hmarks.unseen i hfresh (hI.consumed_received hc)
      have hlive : ¬ mid.SetConsumed x.fecSetIndex := fun hc => hcons (hc i (by omega) (by omega))
      obtain ⟨y, hy, hdc⟩ := hmid.shred_of_unconsumed hr hcons
      obtain ⟨p, hp⟩ := index_split i
      rw [hset] at hp
      rw [hp, SlotState.shredAt_add _ ha] at hy
      rw [hp, Block.shredAt_add hBx ha, Option.some.injEq] at hz
      have htwin := (hsets _ S hBx hlive).twin hS hy
      rw [hdc, htwin.dataComplete, hz]
  · simp only [hr, false_and, iff_false]
    exact fun hc => hr (hmid.complete_received hc)

theorem Tracks.emitting {st : SlotState} {out : List Segment} (h : Tracks B recover A mid)
    (hE : SlotState.Emitting mid st out) : Tracks B recover A st := by
  refine ⟨fun f S hf hlive => ?_, ?_, ?_⟩
  · have hmid : ¬ mid.SetConsumed f :=
      fun hc => hlive fun j h1 h2 => (hE.consumed j).mpr (.inl (hc j h1 h2))
    rcases hE.sets f with hs | hs
    · have hsame : st.setAt f = mid.setAt f := by simp only [SlotState.setAt, hs]
      rw [hsame]
      exact h.sets f S hf hmid
    · exact absurd hs.2 hlive
  · rw [hE.received]
    exact h.received
  · rw [hE.received, hE.complete]
    exact h.complete

/-! ### The runs of a block -/

namespace Block

/- The segment the leader made from its shreds `s..=e`. -/
def segment (B : Block) (s e : ℕ) : Segment where
  shreds := (s, e)
  bytes := (List.range' s (e - s + 1)).flatMap fun i => (B.shredAt i).elim [] Shred.data
  lastInSlot := (B.shredAt e).any Shred.lastInSlot

def Closes (B : Block) (i : ℕ) : Prop := (B.shredAt i).any Shred.dataComplete = true

/-- `[s, e]` is one of the leader's runs, all of it arrived or is recoverable, and so
is the shred that ends the run before it. -/
structure Delivered (B : Block) (recover : Bool) (A : ℕ → Finset Position) (s e : ℕ) : Prop where
  le : s ≤ e
  available : ∀ i, s ≤ i → i ≤ e → B.Available recover A i
  closed : B.Closes e
  inner : ∀ i, s ≤ i → i < e → ¬ B.Closes i
  starts : s = 0 ∨ B.Available recover A (s - 1) ∧ B.Closes (s - 1)

omit [Hasher] in
/-- Where every shred ends a run, each that is there is a run of its own. -/
theorem delivered_iff_of_closes {B : Block} {recover : Bool} {A : ℕ → Finset Position}
    (hclose : ∀ i, B.Available recover A i → B.Closes i) {s e : ℕ} :
    B.Delivered recover A s e ↔ s = e ∧ B.Available recover A s ∧ (s = 0 ∨ B.Available recover A (s - 1)) := by
  constructor
  · intro h
    have hfirst := h.available s le_rfl h.le
    have hse : s = e := by
      by_contra hne
      have hle := h.le
      exact h.inner s le_rfl (by omega) (hclose s hfirst)
    exact ⟨hse, hfirst, h.starts.imp id And.left⟩
  · rintro ⟨rfl, hs', hstart⟩
    refine ⟨le_rfl, ?_, hclose s hs', fun i h1 h2 => absurd h1 (Nat.not_le_of_lt h2), ?_⟩
    · intro i h1 h2
      rwa [le_antisymm h2 h1]
    · exact hstart.imp id fun hbefore => ⟨hbefore, hclose _ hbefore⟩

end Block

omit [Hasher] in
theorem Block.Available.shredAt {i : ℕ} (h : B.Available recover A i) :
    ∃ S, B (i - i % 32) = some S ∧ B.shredAt i = some (S.data (Block.place i)) := by
  obtain ⟨S, hS⟩ := Option.isSome_iff_exists.mp h.1
  exact ⟨S, hS, by simp only [Block.shredAt, hS, Option.map_some]⟩

theorem Tracks.closes (hI : state.Assembling) (h : Tracks B recover A state) (i : ℕ) :
    i ∈ state.complete.ones ↔ B.Available recover A i ∧ B.Closes i := by
  constructor
  · intro hc
    have hav := (h.received i).mp (hI.complete_received hc)
    obtain ⟨S, _, hS⟩ := hav.shredAt
    refine ⟨hav, ?_⟩
    rw [Block.Closes, hS]
    exact ((h.complete i _ hS).mp hc).2
  · intro hc
    obtain ⟨hav, hcl⟩ := hc
    obtain ⟨S, _, hS⟩ := hav.shredAt
    rw [Block.Closes, hS] at hcl
    exact (h.complete i _ hS).mpr ⟨(h.received i).mpr hav, hcl⟩

/-- The complete runs of the slot are the leader's runs that can be delivered. -/
theorem Tracks.run_iff (hI : state.Assembling) (h : Tracks B recover A state) (s e : ℕ) :
    state.Run s e ↔ B.Delivered recover A s e := by
  constructor
  · intro hr
    refine ⟨hr.le, fun i h1 h2 => (h.received i).mp (hr.present i h1 h2), ((h.closes hI e).mp hr.closed).2, ?_, ?_⟩
    · intro i h1 h2 hc
      exact hr.inner i h1 h2 ((h.closes hI i).mpr ⟨(h.received i).mp (hr.present i h1 (by omega)), hc⟩)
    · exact hr.starts.imp id (h.closes hI _).mp
  · intro hd
    refine ⟨hd.le, fun i h1 h2 => (h.received i).mpr (hd.available i h1 h2), ?_, ?_, ?_⟩
    · exact (h.closes hI e).mpr ⟨hd.available e hd.le le_rfl, hd.closed⟩
    · exact fun i h1 h2 hc => hd.inner i h1 h2 ((h.closes hI i).mp hc).2
    · exact hd.starts.imp id (h.closes hI _).mpr

omit [Hasher] in
theorem Block.segment_of_twins {s e : ℕ} (hle : s ≤ e) (h : ∀ i, s ≤ i → i ≤ e →
    ∃ y z, state.shredAt i = some y ∧ B.shredAt i = some z ∧ Shred.Twin z y) :
    state.segmentOf s e = B.segment s e := by
  have hbytes : (List.range' s (e - s + 1)).flatMap (fun i => (state.shredAt i).elim [] Shred.data) =
      (List.range' s (e - s + 1)).flatMap fun i => (B.shredAt i).elim [] Shred.data := by
    apply List.flatMap_congr
    intro i hi
    have hi := List.mem_range'_1.mp hi
    obtain ⟨y, z, hy, hz, ht⟩ := h i hi.1 (by omega)
    rw [hy, hz, Option.elim, Option.elim, ht.data]
  obtain ⟨y, z, hy, hz, ht⟩ := h e hle le_rfl
  rw [SlotState.segmentOf, Block.segment, hbytes, hy, hz, Option.any_some, Option.any_some, ht.lastInSlot]

/-- What a run of the slot is made of is what the leader put into it. -/
theorem Tracks.segmentOf (hI : state.Assembling) (h : Tracks B recover A state)
    (hB : B.ConsistentSets Codeword slot) {s e : ℕ} (hr : state.Run s e) (hs : s ∉ state.consumed.ones) :
    state.segmentOf s e = B.segment s e := by
  apply Block.segment_of_twins hr.le
  intro i h1 h2
  have hfree := hI.run_unconsumed hr le_rfl hr.le hs h1 h2
  have hrec := hr.present i h1 h2
  obtain ⟨y, hy, _⟩ := hI.shred_of_unconsumed hrec hfree
  obtain ⟨S, hf, hS⟩ := ((h.received i).mp hrec).shredAt
  obtain ⟨version, hcons⟩ := hB _ S hf
  refine ⟨y, S.data (Block.place i), hy, hS, ?_⟩
  exact (h.sets _ S hf fun hc => hfree (hc i (by omega) (by omega))).twin hcons hy

/-- What a call with a shred of the block does to a slot that tracks it. -/
structure Inserting (B : Block) (recover : Bool) (A : ℕ → Finset Position) (state state' : SlotState)
    (out : List Segment) : Prop where
  tracks : Tracks B recover A state'
  run_iff : ∀ s e, state'.Run s e ↔ state.Run s e ∨ (s, e) ∈ out.map Segment.shreds
  segments : ∀ seg ∈ out, state'.Run seg.shreds.1 seg.shreds.2 ∧ seg = B.segment seg.shreds.1 seg.shreds.2

theorem Tracks.inserted {state' : SlotState} {out : List Segment} (hI : state.SlotInv) (h : Tracks B recover A state)
    (hB : B.ConsistentSets Codeword slot) (hx : B.Sends x)
    (hrs : ∀ r, rs = some r → recover = true ∧ r.Rebuilds Codeword) (hsome : recover = true → rs ≠ none)
    (hins : SlotState.Inserted state x rs mid fresh state' out) :
    Inserting B recover (arrive A x) state state' out := by
  obtain ⟨S, hS, hq⟩ := hx
  obtain ⟨version, hcons⟩ := hB _ S hS
  have hmid := hins.stored.assembling hcons.inRange hI.toAssembling
  have htmid := h.stored hI hB ⟨S, hS, hq⟩ hrs hsome hins.stored
  have hsame : ∀ s e, state'.Run s e ↔ mid.Run s e := by
    intro s e
    simp only [SlotState.Run, hins.received, hins.complete]
  refine ⟨htmid.emitting hins.toEmitting, fun s e => ?_, fun seg hseg => ?_⟩
  · rw [hsame, hins.out_iff]
    constructor
    · intro hr
      by_cases hold : state.Run s e
      · exact .inl hold
      · exact .inr ⟨hr, hold⟩
    · intro hr
      exact hr.elim (hins.stored.marks hI.toAssembling).run_mono And.left
  · obtain ⟨hr, hstart, heq⟩ := hins.segments seg hseg
    rw [htmid.segmentOf hmid hB hr hstart] at heq
    exact ⟨(hsame _ _).mpr hr, heq⟩

/-! ### A sequence of calls with shreds of the block -/

omit [Hasher] in
/-- The erasure positions of set `f` that the shreds of the calls filled. -/
def arrivedIn (inputs : List (Shred × Option ReedSolomon)) (f : ℕ) : Finset Position :=
  (inputs.filterMap fun i => if i.1.fecSetIndex = f then some i.1.position else none).toFinset

omit [Hasher] in
theorem mem_arrivedIn {inputs : List (Shred × Option ReedSolomon)} {q : Position} :
    q ∈ arrivedIn inputs f ↔ ∃ i ∈ inputs, i.1.fecSetIndex = f ∧ i.1.position = q := by
  simp only [arrivedIn, List.mem_toFinset, List.mem_filterMap, Option.ite_none_right_eq_some, Option.some.injEq]

omit [Hasher] in
theorem arrivedIn_snoc (inputs : List (Shred × Option ReedSolomon)) (input : Shred × Option ReedSolomon) :
    arrivedIn (inputs ++ [input]) = arrive (arrivedIn inputs) input.1 := by
  funext f
  ext q
  rw [arrive, mem_arrivedIn]
  simp only [List.mem_append, List.mem_singleton, or_and_right, exists_or, exists_eq_left]
  rw [← mem_arrivedIn]
  by_cases hf : f = input.1.fecSetIndex
  · rw [hf, Function.update_self, Finset.mem_insert, eq_self, true_and, or_comm, eq_comm]
  · rw [Function.update_of_ne hf]
    exact or_iff_left fun hnew => hf hnew.1.symm

/-- In any order and however often they come, the slot emits the runs that arrived or
can be recovered. -/
theorem insertAll_tracks (hB : B.ConsistentSets Codeword slot) (stats : Stats)
    (inputs : List (Shred × Option ReedSolomon)) (hx : ∀ i ∈ inputs, B.Sends i.1)
    (hrs : ∀ i ∈ inputs, ∀ r, i.2 = some r → recover = true ∧ r.Rebuilds Codeword)
    (hsome : ∀ i ∈ inputs, recover = true → i.2 ≠ none) :
    ∃ s out, SlotState.insertAll stats inputs = .ok (s, out) ∧ Tracks B recover (arrivedIn inputs) s.1 ∧
      ∀ seg, seg ∈ out ↔ s.1.Run seg.shreds.1 seg.shreds.2 ∧ seg = B.segment seg.shreds.1 seg.shreds.2 := by
  induction inputs using List.reverseRecOn with
  | nil =>
    refine ⟨_, [], rfl, Tracks.empty B recover, fun seg => ?_⟩
    refine iff_of_false (List.not_mem_nil) fun hrun => ?_
    exact absurd (hrun.1.present _ le_rfl hrun.1.le) (by simp [SlotState.empty])
  | append_singleton inputs input ih =>
    obtain ⟨s, out, hrun, htracks, hout⟩ := ih (fun i hi => hx i (by simp [hi])) (fun i hi => hrs i (by simp [hi]))
      fun i hi => hsome i (by simp [hi])
    have hI := SlotState.insertAll_inv hrun
    obtain ⟨S, hS, hq⟩ := hx input (by simp)
    obtain ⟨version, hcons⟩ := hB _ S hS
    obtain ⟨mid, fresh, state, stats', segments, _, hok, _, hins⟩ := SlotState.insert_cases hI hcons.inRange input.2 s.2
    have hone := htracks.inserted hI hB ⟨S, hS, hq⟩ (hrs input (by simp)) (hsome input (by simp)) hins
    refine ⟨(state, stats'), out ++ segments,
      Steps.runAll_snoc_ok.mpr ⟨s, out, segments, hrun, SlotState.insertStep_ok.mpr hok, rfl⟩, ?_, fun seg => ?_⟩
    · rw [arrivedIn_snoc]
      exact hone.tracks
    · rw [List.mem_append, hout, hone.run_iff, or_and_right]
      refine or_congr_right ⟨fun hseg => ⟨List.mem_map_of_mem hseg, (hone.segments seg hseg).2⟩, ?_⟩
      rintro ⟨hmem, heq⟩
      obtain ⟨seg', hseg', hshreds⟩ := List.mem_map.mp hmem
      have heq' := (hone.segments seg' hseg').2
      rw [hshreds] at heq'
      rwa [heq, ← heq']

end
end Deshred
