import Deshred.LeaderSlot

/-!
# A slot fed with shreds of one set

While no recovery runs, the bits of the slot are those of the data shreds that came.
-/

namespace Deshred
variable [Hasher] {S : LeaderSet} {f : ℕ} {root : Hash32} {signature : Signature} {A : Finset Position}
  {state mid st : SlotState} {x : Shred} {rs : Option ReedSolomon} {fresh : List ℕ} {out : List Segment}
  {q : Position}

/- The slot has taken in the shreds of `S` at the places `A` and no others. -/
structure Fed (S : LeaderSet) (f : ℕ) (root : Hash32) (signature : Signature) (A : Finset Position)
    (state : SlotState) : Prop where
  set : ∀ p, .data p ∉ A → S.Holding root signature A (state.setAt f)
  received : ∀ i, i ∈ state.received.ones ↔ ∃ p : Fin 32, .data p ∈ A ∧ i = f + p
  complete : ∀ i, i ∈ state.complete.ones ↔
    ∃ p : Fin 32, .data p ∈ A ∧ i = f + p ∧ (S.data p).dataComplete = true

omit [Hasher] in
theorem Fed.empty (S : LeaderSet) (f : ℕ) (root : Hash32) (signature : Signature) :
    Fed S f root signature ∅ SlotState.empty where
  set _ _ := LeaderSet.Holding.empty
  received := by simp [SlotState.empty]
  complete := by simp [SlotState.empty]

omit [Hasher] in
theorem Fed.received_iff (h : Fed S f root signature A state) (p : Fin 32) :
    f + p ∈ state.received.ones ↔ .data p ∈ A := by
  rw [h.received]
  constructor
  · intro ⟨r, hr, heq⟩
    have hpr : p = r := Fin.ext (by omega)
    exact hpr ▸ hr
  · exact fun hp => ⟨p, hp, rfl⟩

omit [Hasher] in
theorem Fed.live (hI : SlotState.SlotInv state) (h : Fed S f root signature A state) {p : Fin 32} (hp : .data p ∉ A) :
    ¬ state.SetConsumed f := by
  intro hc
  have hlt := p.isLt
  exact hp ((h.received_iff p).mp (hI.consumed_received (hc _ (by omega) (by omega))))

theorem Fed.taken (hI : SlotState.SlotInv state) (h : Fed S f root signature A state) (hS : S.Sealed f root signature q)
    (hx : S.shred q = x) (hq : q ∉ A) {p : Fin 32} (hp : .data p ∉ A) (hst : SlotState.Stored state x rs mid fresh) :
    ∃ set' indexes, SlotState.Taken state x rs mid fresh root set' indexes := by
  subst hx
  have hf : (S.shred q).fecSetIndex = f := hS.fecSetIndex
  have hhold := h.set p hp
  rw [← hf] at hhold
  have hacc := hhold.accepts hS hq (hhold.not_complete (hI.setAt_inv _) hp)
  refine hst.taken_of_accepts (fun hk hrec => ?_) (fun _ hc => ?_) hacc
  · obtain ⟨r, hpos⟩ := (S.shred q).exists_position_data hk
    rw [(Shred.position_data _ hpos).2.1, hf, h.received_iff] at hrec
    rw [hS.position] at hpos
    exact hq (hpos ▸ hrec)
  · rw [hf] at hc
    exact h.live hI hp hc

/-- Below 32 shreds, or without code shreds, there is nothing to recover. -/
theorem Fed.stored (hI : SlotState.SlotInv state) (h : Fed S f root signature A state) (hS : S.Sealed f root signature q)
    (hx : S.shred q = x) (hq : q ∉ A) {p : Fin 32} (hp : .data p ∉ A)
    (hfew : ∀ r, .data r ∉ insert q A → (insert q A : Finset Position).card < 32)
    (hst : SlotState.Stored state x rs mid fresh) : Fed S f root signature (insert q A) mid := by
  obtain ⟨set', indexes, ht⟩ := h.taken hI hS hx hq hp hst
  have hf : x.fecSetIndex = f := by rw [← hx, hS.fecSetIndex]
  have hpos : x.position = q := by rw [← hx, hS.position]
  have hhold := h.set p hp
  have hIset := hI.setAt_inv f
  have hacc : FecSet.Accepts (state.setAt f) (S.shred q) root := hhold.accepts hS hq (hhold.not_complete hIset hp)
  have hIacc := hIset.accepted hS.fecSetIndex hacc
  have hno : ((state.setAt f).accepted (S.shred q) root).canRecover = false := by
    by_cases hall : ∀ r, .data r ∈ insert q A
    · have hcomp : ((state.setAt f).accepted (S.shred q) root).isComplete = true := by
        apply hIacc.toPlaced.isComplete_iff.mpr
        intro r
        rw [hhold.accepted_data hS hacc (hall r)]
        rfl
      simp [FecSet.canRecover, hcomp]
    · obtain ⟨r, hr⟩ := not_forall.mp hall
      have hiff := (hhold.accepted hS hIset hq hr).canRecover_iff hIacc hr
      have hlt := hfew r hr
      rw [← Bool.not_eq_true, hiff]
      omega
  have hidle : set' = (state.setAt f).accepted (S.shred q) root ∧ indexes = [] := by
    have hrec := ht.recovering
    rw [hf, ← hx] at hrec
    exact hrec.of_idle fun _ _ => hno
  obtain ⟨hset, rfl⟩ := hidle
  have hsame := ht.setAt_same
  rw [hf, hset] at hsame
  have hrec : ∀ i, i ∈ mid.received.ones ↔ ∃ r : Fin 32, .data r ∈ insert q A ∧ i = f + r := by
    intro i
    rw [ht.received, ht.fresh_eq, List.append_nil, h.received]
    constructor
    · intro hi
      rcases hi with ⟨r, hr, rfl⟩ | hi
      · exact ⟨r, Finset.mem_insert_of_mem hr, rfl⟩
      · split at hi
        · rename_i hd
          obtain ⟨r, hr⟩ := x.exists_position_data (x.isData_iff.mp hd)
          refine ⟨r, Finset.mem_insert.mpr (.inl (hr.symm.trans hpos)), ?_⟩
          rw [List.mem_singleton.mp hi, (x.position_data hr).2.1, hf]
        · contradiction
    · rintro ⟨r, hr, hi⟩
      rcases Finset.mem_insert.mp hr with hr | hr
      · have hxr := x.position_data (hpos.trans hr.symm)
        right
        rw [if_pos (x.isData_iff.mpr hxr.1), hxr.2.1, hf, hi]
        exact List.mem_singleton.mpr rfl
      · exact .inl ⟨r, hr, hi⟩
  refine ⟨fun r hr => ?_, hrec, fun i => ?_⟩
  · rw [hsame]
    exact hhold.accepted hS hIset hq hr
  · rw [ht.complete, h.complete]
    constructor
    · intro hi
      rcases hi with ⟨r, hr, hi⟩ | ⟨hfresh, r, y, hi, hy, hdc⟩
      · exact ⟨r, Finset.mem_insert_of_mem hr, hi⟩
      · rw [hf] at hi
        have hmem : .data r ∈ insert q A := by
          obtain ⟨r', hr', hi'⟩ := (hrec i).mp ((ht.received i).mpr (.inr hfresh))
          have hrr : r = r' := Fin.ext (by omega)
          exact hrr ▸ hr'
        rw [hset, hhold.accepted_data hS hacc hmem, Option.some.injEq] at hy
        exact ⟨r, hmem, hi, by rw [hy]; exact hdc⟩
    · rintro ⟨r, hr, hi, hdc⟩
      by_cases hold : .data r ∈ A
      · exact .inl ⟨r, hold, hi, hdc⟩
      · have hrq := (Finset.mem_insert.mp hr).resolve_right hold
        have hxr := x.position_data (hpos.trans hrq.symm)
        refine .inr ⟨?_, r, S.data r, by rw [hf]; exact hi, ?_, hdc⟩
        · rw [ht.fresh_eq, if_pos (x.isData_iff.mpr hxr.1), hxr.2.1, hf, hi]
          exact List.mem_cons_self ..
        · rw [hset]
          exact hhold.accepted_data hS hacc hr

omit [Hasher] in
theorem Fed.emitting (h : Fed S f root signature A mid) (hE : SlotState.Emitting mid st out) :
    Fed S f root signature A st := by
  refine ⟨fun r hr => ?_, ?_, ?_⟩
  · rcases hE.sets f with hs | hs
    · rw [SlotState.setAt, hs]
      exact h.set r hr
    · have hlt := r.isLt
      have hrec := hE.consumed_received (hs.2 (f + r) (by omega) (by omega))
      rw [hE.received, h.received_iff] at hrec
      exact absurd hrec hr
  · rw [hE.received]
    exact h.received
  · rw [hE.complete]
    exact h.complete

/-- Fewer than 32 shreds of a set, in any order, to a fresh slot. -/
theorem insertAll_fed {order : List Position} (hS : ∀ q ∈ order, S.Sealed f root signature q) (hf : f ≤ 32736)
    (hnd : order.Nodup) (hlen : order.length < 32) {p : Fin 32} (hp : .data p ∉ order) (stats : Stats)
    (rs : Option ReedSolomon) : ∃ s out,
      SlotState.insertAll stats (order.map fun q => (S.shred q, rs)) = .ok (s, out) ∧
      Fed S f root signature order.toFinset s.1 := by
  induction order using List.reverseRecOn with
  | nil => exact ⟨_, [], rfl, Fed.empty ..⟩
  | append_singleton order q ih =>
    obtain ⟨hndo, hq⟩ := nodup_before hnd
    have hp' : .data p ∉ order := fun hmem => hp (by simp [hmem])
    have hlen' : order.length < 32 := by
      rw [List.length_append] at hlen
      omega
    obtain ⟨s, out, hrun, hfed⟩ := ih (fun r hr => hS r (by simp [hr])) hndo hlen' hp'
    have hI := SlotState.insertAll_inv hrun
    have hSq := hS q (by simp)
    have hset : (S.shred q).fecSetIndex ≤ 32736 := by
      rw [hSq.fecSetIndex]
      exact hf
    obtain ⟨mid, fresh, state, stats', segments, _, hok, _, hins⟩ := SlotState.insert_cases hI hset rs s.2
    have hins_eq : (order ++ [q]).toFinset = insert q order.toFinset := by
      rw [List.toFinset_append, List.toFinset_cons, List.toFinset_nil, Finset.union_insert, Finset.union_empty]
    have hfew : ∀ r, .data r ∉ insert q order.toFinset → (insert q order.toFinset : Finset Position).card < 32 := by
      intro r _
      have hle := List.toFinset_card_le (order ++ [q])
      rw [hins_eq] at hle
      omega
    have hpo : .data p ∉ order.toFinset := by
      rw [List.mem_toFinset]
      exact hp'
    have hmid := hfed.stored hI hSq rfl hq hpo hfew hins.stored
    refine ⟨(state, stats'), out ++ segments, ?_, ?_⟩
    · rw [List.map_append]
      exact Steps.runAll_snoc_ok.mpr ⟨s, out, segments, hrun, SlotState.insertStep_ok.mpr hok, rfl⟩
    · rw [hins_eq]
      exact hmid.emitting hins.toEmitting

end Deshred
