import Deshred.Arrival
import Deshred.Segment

/-!
# Reading a whole block back

A leader writes entries into the runs of a block. Once enough shreds of every set of it
arrived, in any order, the views into what was handed out, in shred order, are those
entries and no others.
-/

namespace Deshred
open View

/- A run of a leader's block, and the entries that went into it. -/
structure WrittenRun where
  shreds : ℕ × ℕ
  entries : List Entry

namespace Block

/-- The shreds are one run of the block and carry the entries, with padding behind them. -/
structure Writes (B : Block) (w : WrittenRun) : Prop where
  le : w.shreds.1 ≤ w.shreds.2
  sent : ∀ i, w.shreds.1 ≤ i → i ≤ w.shreds.2 → (B (i - i % 32)).isSome
  closed : B.Closes w.shreds.2
  inner : ∀ i, w.shreds.1 ≤ i → i < w.shreds.2 → ¬ B.Closes i
  count : w.entries.length < 2 ^ 64
  wellFormed : ∀ e ∈ w.entries, e.WellFormed
  bytes : ∃ padding, (B.segment w.shreds.1 w.shreds.2).bytes = encodeSegment w.entries ++ padding

/-- From shred `s` on the block consists of these runs, one behind the other. -/
def WrittenFrom (B : Block) (s : ℕ) : List WrittenRun → Prop
  | [] => ∀ i, s ≤ i → B (i - i % 32) = none
  | w :: rest => w.shreds.1 = s ∧ B.Writes w ∧ B.WrittenFrom (w.shreds.2 + 1) rest

/- All of the block is there. -/
def Supplied (B : Block) (recover : Bool) (A : ℕ → Finset Position) : Prop :=
  ∀ f S, B f = some S → Ready recover (A f)

variable {B : Block} {recover : Bool} {A : ℕ → Finset Position} {s : ℕ} {ledger : List WrittenRun}

theorem Supplied.available (h : B.Supplied recover A) {i : ℕ} (hi : (B (i - i % 32)).isSome) :
    B.Available recover A i := by
  obtain ⟨S, hS⟩ := Option.isSome_iff_exists.mp hi
  exact ⟨hi, (h _ S hS).present _⟩

theorem WrittenFrom.start_le (h : B.WrittenFrom s ledger) : ∀ w ∈ ledger, s ≤ w.shreds.1 := by
  induction ledger generalizing s with
  | nil => exact List.forall_mem_nil _
  | cons w rest ih =>
    obtain ⟨hs, hw, hrest⟩ := h
    have hle := hw.le
    intro v hv
    rcases List.mem_cons.mp hv with rfl | hv
    · exact hs.ge
    · have hnext := ih hrest v hv
      omega

theorem WrittenFrom.sorted (h : B.WrittenFrom s ledger) : ledger.Pairwise fun v w => v.shreds.1 < w.shreds.1 := by
  induction ledger generalizing s with
  | nil => exact List.Pairwise.nil
  | cons w rest ih =>
    obtain ⟨_, hw, hrest⟩ := h
    have hle := hw.le
    refine List.Pairwise.cons (fun v hv => ?_) (ih hrest)
    have hnext := hrest.start_le v hv
    omega

theorem WrittenFrom.writes (h : B.WrittenFrom s ledger) : ∀ w ∈ ledger, B.Writes w := by
  induction ledger generalizing s with
  | nil => exact List.forall_mem_nil _
  | cons w rest ih => exact List.forall_mem_cons.mpr ⟨h.2.1, ih h.2.2⟩

/-- Each run of the leader can be delivered. -/
theorem WrittenFrom.delivered (h : B.WrittenFrom s ledger) (hA : B.Supplied recover A)
    (hs : s = 0 ∨ B.Available recover A (s - 1) ∧ B.Closes (s - 1)) :
    ∀ w ∈ ledger, B.Delivered recover A w.shreds.1 w.shreds.2 := by
  induction ledger generalizing s with
  | nil => exact List.forall_mem_nil _
  | cons w rest ih =>
    obtain ⟨rfl, hw, hrest⟩ := h
    have hall : ∀ i, w.shreds.1 ≤ i → i ≤ w.shreds.2 → B.Available recover A i :=
      fun i h1 h2 => hA.available (hw.sent i h1 h2)
    refine List.forall_mem_cons.mpr ⟨⟨hw.le, hall, hw.closed, hw.inner, hs⟩, ?_⟩
    exact ih hrest (.inr ⟨hall _ hw.le le_rfl, hw.closed⟩)

/-- Nothing but the runs of the leader can be delivered: a run starts where one of them does. -/
theorem WrittenFrom.of_delivered (h : B.WrittenFrom s ledger) {s' e' : ℕ} (hd : B.Delivered recover A s' e')
    (hstart : s' = s ∨ s < s' ∧ B.Closes (s' - 1)) : ∃ w ∈ ledger, w.shreds = (s', e') := by
  induction ledger generalizing s with
  | nil =>
    have hgone := h s' (by omega)
    have hthere := (hd.available s' le_rfl hd.le).1
    rw [hgone] at hthere
    contradiction
  | cons w rest ih =>
    obtain ⟨hs, hw, hrest⟩ := h
    have hle := hw.le
    have hle' := hd.le
    rcases hstart with rfl | ⟨hlt, hcloses⟩
    · -- both runs end at the first shred that closes one
      have hend : w.shreds.2 = e' := by
        rcases Nat.lt_trichotomy w.shreds.2 e' with hlt | heq | hgt
        · exact absurd hw.closed (hd.inner _ (by omega) hlt)
        · exact heq
        · exact absurd hd.closed (hw.inner _ (by omega) hgt)
      exact ⟨w, List.mem_cons_self .., Prod.ext hs hend⟩
    · have hpast : w.shreds.2 ≤ s' - 1 := by
        by_contra hin
        exact hw.inner (s' - 1) (by omega) (by omega) hcloses
      have hnext : s' = w.shreds.2 + 1 ∨ w.shreds.2 + 1 < s' ∧ B.Closes (s' - 1) := by
        rcases Nat.lt_or_ge (w.shreds.2 + 1) s' with hlt | hge
        · exact .inr ⟨hlt, hcloses⟩
        · exact .inl (by omega)
      obtain ⟨v, hv, heq⟩ := ih hrest hnext
      exact ⟨v, List.mem_cons_of_mem _ hv, heq⟩

theorem WrittenFrom.delivered_iff (h : B.WrittenFrom 0 ledger) (hA : B.Supplied recover A) (s' e' : ℕ) :
    B.Delivered recover A s' e' ↔ ∃ w ∈ ledger, w.shreds = (s', e') := by
  constructor
  · intro hd
    refine h.of_delivered hd ?_
    rcases hd.starts with rfl | ⟨_, hcloses⟩
    · exact .inl rfl
    · rcases Nat.eq_zero_or_pos s' with rfl | hpos
      · exact .inl rfl
      · exact .inr ⟨hpos, hcloses⟩
  · rintro ⟨w, hw, heq⟩
    have hd := h.delivered hA (.inl rfl) w hw
    rw [heq] at hd
    exact hd

end Block

/- The batches of one slot, in shred order. -/
def shredOrder (slot : ℕ) (batches : List RawBatch) : List RawBatch :=
  KeyedSort.sortByKey (fun b => b.shreds.1) (batches.filter fun b => b.slot = slot)

/-- The views into the batch are the entries of the run. -/
def WrittenRun.SeenIn (w : WrittenRun) (b : RawBatch) : Prop :=
  b.shreds = w.shreds ∧ ∃ it views, View.entries b.bytes = .ok it ∧ it.items scanEntry = views.map .ok ∧
    List.Forall₂ Entry.SeenAs w.entries views

namespace Deshredder
variable [Hasher] {blocks : ℕ → Block} {Codeword : List Bytes → Prop} {config : Config} {rs : ReedSolomon} {version a : ℕ}
  {packets : List Bytes} {d : Deshredder} {out : List RawBatch} {slot : ℕ} {ledger : List WrittenRun}

omit [Hasher] in
theorem leaderBatch_reads {w : WrittenRun} (h : (blocks slot).Writes w) :
    w.SeenIn (leaderBatch blocks slot w.shreds.1 w.shreds.2) := by
  obtain ⟨padding, hbytes⟩ := h.bytes
  obtain ⟨it, hit, hitems⟩ := entries_encodeSegment h.count h.wellFormed padding
  rw [← hbytes] at hit
  refine ⟨rfl, it, _, hit, hitems, ?_⟩
  rw [List.forall₂_map_right_iff, List.forall₂_same]
  exact fun e he => (h.wellFormed e he).seenAs

/-- What was handed out of a slot whose sets are all there. -/
theorem Delivering.shredOrder_eq (h : Delivering blocks config rs a packets d out)
    (hledger : (blocks slot).WrittenFrom 0 ledger) (hA : (blocks slot).Supplied config.recover (arrivals packets slot)) :
    shredOrder slot out = ledger.map fun w => leaderBatch blocks slot w.shreds.1 w.shreds.2 := by
  have hsorted : (ledger.map fun w => leaderBatch blocks slot w.shreds.1 w.shreds.2).Pairwise
      fun b c => b.shreds.1 < c.shreds.1 := List.pairwise_map.mpr hledger.sorted
  have hmem : ∀ b, b ∈ out.filter (fun b => b.slot = slot) ↔
      b ∈ ledger.map fun w => leaderBatch blocks slot w.shreds.1 w.shreds.2 := by
    intro b
    rw [List.mem_filter, h.mem_out, (h.tracks b.slot).run_iff (h.slots.slotState b.slot).toAssembling,
      decide_eq_true_eq, List.mem_map]
    constructor
    · rintro ⟨⟨hdel, heq⟩, rfl⟩
      obtain ⟨w, hw, hshreds⟩ := (hledger.delivered_iff hA _ _).mp hdel
      refine ⟨w, hw, ?_⟩
      rw [hshreds]
      exact heq.symm
    · rintro ⟨w, hw, rfl⟩
      exact ⟨⟨(hledger.delivered_iff hA _ _).mpr ⟨w, hw, rfl⟩, rfl⟩, rfl⟩
  have hperm := (List.perm_ext_iff_of_nodup (h.nodup.filter _) (hsorted.imp fun hlt heq => by
    rw [heq] at hlt
    exact lt_irrefl _ hlt)).mpr hmem
  rw [shredOrder, KeyedSort.sortByKey_eq_of_perm hperm, KeyedSort.sortByKey_of_pairwise (hsorted.imp le_of_lt)]
  intro b hb c hc hstart
  obtain ⟨hb, hbslot⟩ := List.mem_filter.mp hb
  obtain ⟨hc, hcslot⟩ := List.mem_filter.mp hc
  rw [decide_eq_true_eq] at hbslot hcslot
  exact h.start_unique hb hc (hbslot.trans hcslot.symm) hstart

/-- Of every slot whose sets arrived or can be recovered, in whatever order and however
often, the views into the batches are the leader's entries: all runs of the block, each
once, and in each run its entries with their transactions. -/
theorem blocks_read_back (hB : Served blocks Codeword config rs version a) (hp : AllSent blocks config a packets) :
    ∃ d out, (new config rs).pushAll packets = .ok (d, out) ∧ ∀ slot ledger,
      (blocks slot).WrittenFrom 0 ledger → (blocks slot).Supplied config.recover (arrivals packets slot) →
        List.Forall₂ WrittenRun.SeenIn ledger (shredOrder slot out) := by
  obtain ⟨d, out, hrun, hD⟩ := hB.delivering hp
  refine ⟨d, out, hrun, fun slot ledger hledger hA => ?_⟩
  rw [hD.shredOrder_eq hledger hA, List.forall₂_map_right_iff, List.forall₂_same]
  exact fun w hw => leaderBatch_reads (hledger.writes w hw)

end Deshredder

/-! ### The sample block -/

section
variable [Hasher]

theorem sampleBlocks_set {f : ℕ} : ((sampleBlocks 7) f).isSome ↔ f = 0 ∨ f = 32 := by
  rw [sampleBlocks_slot, carriedBlock]
  split
  · rename_i h
    simp [h]
  · rename_i h
    split
    · rename_i h'
      simp [h']
    · rename_i h'
      simp [h, h']

theorem sampleBlocks_writes {i : ℕ} (hi : i < 64) : (sampleBlocks 7).Writes ⟨(i, i), sampleRun⟩ where
  le := le_rfl
  sent j h1 h2 := by
    have heq : j = i := le_antisymm h2 h1
    exact sampleBlocks_set.mpr (by omega)
  closed := by
    rw [sampleBlocks_slot]
    exact carriedBlock_closes sampleSlot_lt sampleRun_fits hi
  inner j h1 h2 := absurd h1 (Nat.not_le_of_lt h2)
  count := show 2 < 2 ^ 64 by decide
  wellFormed := sampleRun_wellFormed
  bytes := by
    rw [sampleBlocks_slot, carriedBlock_segment sampleSlot_lt sampleRun_fits hi]
    exact ⟨[], (List.append_nil _).symm⟩

theorem sampleBlocks_written (n : ℕ) (hn : n ≤ 64) :
    (sampleBlocks 7).WrittenFrom (64 - n) ((List.range' (64 - n) n).map fun i => ⟨(i, i), sampleRun⟩) := by
  induction n with
  | zero =>
    intro i hi
    have hgone : ¬ ((sampleBlocks 7) (i - i % 32)).isSome := by
      rw [sampleBlocks_set]
      omega
    simpa using hgone
  | succ n ih =>
    rw [List.range'_succ, List.map_cons]
    refine ⟨rfl, sampleBlocks_writes (by omega), ?_⟩
    have hnext : 64 - (n + 1) + 1 = 64 - n := by omega
    rw [hnext]
    exact ih (by omega)

end

/- The code shreds of both sets, the last first. -/
def bothPlaces : List (Fin 1024 × Position) :=
  (List.finRange 32).reverse.map (fun p => (1, .code p)) ++ (List.finRange 32).reverse.map fun p => (0, .code p)

theorem mem_bothPlaces {n : Fin 1024} {q : Position} : (n, q) ∈ bothPlaces ↔ (n = 0 ∨ n = 1) ∧ ∃ p, q = .code p := by
  rw [bothPlaces, List.mem_append, List.mem_map, List.mem_map]
  have hall : ∀ p : Fin 32, p ∈ (List.finRange 32).reverse := fun p => List.mem_reverse.mpr (List.mem_finRange p)
  constructor
  · rintro (⟨p, _, heq⟩ | ⟨p, _, heq⟩)
    · obtain ⟨rfl, rfl⟩ := Prod.mk.inj heq
      exact ⟨.inr rfl, p, rfl⟩
    · obtain ⟨rfl, rfl⟩ := Prod.mk.inj heq
      exact ⟨.inl rfl, p, rfl⟩
  · rintro ⟨rfl | rfl, p, rfl⟩
    · exact .inr ⟨p, hall p, rfl⟩
    · exact .inl ⟨p, hall p, rfl⟩

/-- Of two sets only the code shreds arrive, in the wrong order. -/
theorem Deshredder.blocks_read_back_two_sets :
    let : Hasher := sha256Hasher
    ∃ d out, (new ⟨none, 64, true⟩ sampleRs).pushAll (bothPlaces.map samplePacket) = .ok (d, out) ∧
      List.Forall₂ WrittenRun.SeenIn ((List.range' 0 64).map fun i => ⟨(i, i), sampleRun⟩) (shredOrder 7 out) := by
  let : Hasher := sha256Hasher
  intro _
  have hp : AllSent sampleBlocks ⟨none, 64, true⟩ 7 (bothPlaces.map samplePacket) := by
    intro b hb
    obtain ⟨place, hplace, rfl⟩ := List.mem_map.mp hb
    exact ⟨_, carriedPacket_fromLeader sampleSlot_lt sampleRun_fits (mem_bothPlaces.mp hplace).1 64⟩
  have hA : (sampleBlocks 7).Supplied true (arrivals (bothPlaces.map samplePacket) 7) := by
    intro f S hS
    have harrived : ArrivedAt bothPlaces (arrivals (bothPlaces.map samplePacket) 7) :=
      arrivedAt_arrivals sampleSlot_lt sampleRun_fits bothPlaces
    refine .inr ⟨rfl, all_codes_card fun p => ?_⟩
    rcases sampleBlocks_set.mp (Option.isSome_iff_exists.mpr ⟨S, hS⟩) with rfl | rfl
    · exact (harrived 0 (.code p)).mpr (mem_bothPlaces.mpr ⟨.inl rfl, p, rfl⟩)
    · exact (harrived 1 (.code p)).mpr (mem_bothPlaces.mpr ⟨.inr rfl, p, rfl⟩)
  obtain ⟨d, out, hrun, hread⟩ := blocks_read_back Session.sample_served hp
  exact ⟨d, out, hrun, hread 7 _ (sampleBlocks_written 64 le_rfl) hA⟩

end Deshred
