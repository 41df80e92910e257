import Deshred.Entries

/-!
# Segments that are cut short

Every read of the scanner stays inside the bytes it has, so on the first bytes of a
segment it finds the entries that are there whole and says that the next one is truncated.
-/

namespace Deshred
open Scanner View

/-! ### No reader misreads a prefix -/

/-- Bytes that end too early are reported as such. -/
abbrev CutsShort {α : Type} (p : Scan α) : Prop := Cuts ViewError.truncated p

theorem cutsShort_u8 : CutsShort u8 := (Cuts.take 1).map _

theorem cutsShort_u64 : CutsShort u64 := (Cuts.take 8).map _

theorem cutsShort_u32 : CutsShort u32 := (Cuts.take 4).map _

theorem cutsShort_shortvecFrom (start : ℕ) (shifts : List ℕ) (value : ℕ) :
    CutsShort (shortvecFrom start shifts value) := by
  induction shifts generalizing value with
  | nil => exact Cuts.fail _
  | cons shift shifts ih =>
    refine cutsShort_u8.bind fun byte => ?_
    dsimp only
    split
    · exact Cuts.pure _
    · exact ih _

theorem cutsShort_shortvecLen : CutsShort shortvecLen := Cuts.offset.bind fun start => cutsShort_shortvecFrom start _ 0

/- A length, and as many bytes times `k`. -/
theorem CutsShort.counted {α : Type} {k : ℕ} {f : Scan α} (hf : CutsShort f) :
    CutsShort (shortvecLen >>= fun n => View.take (n * k) >>= fun _ => f) :=
  cutsShort_shortvecLen.bind fun n => (Cuts.take (n * k)).bind fun _ => hf

theorem CutsShort.bytes {α : Type} {f : Scan α} (hf : CutsShort f) :
    CutsShort (shortvecLen >>= fun n => View.take n >>= fun _ => f) :=
  cutsShort_shortvecLen.bind fun n => (Cuts.take n).bind fun _ => hf

theorem cutsShort_scanInstruction : CutsShort scanInstruction :=
  cutsShort_u8.bind fun _ => CutsShort.bytes (CutsShort.bytes (Cuts.pure ()))

theorem cutsShort_scanLookup : CutsShort scanLookup :=
  (Cuts.take 32).bind fun _ => CutsShort.bytes (CutsShort.bytes (Cuts.pure ()))

theorem cutsShort_scanMessage (version : TxVersion) : CutsShort (scanMessage version) := by
  refine (Cuts.take 3).bind fun _ => CutsShort.counted ((Cuts.take 32).bind fun _ => ?_)
  refine cutsShort_shortvecLen.bind fun n => (cutsShort_scanInstruction.repeatN n).bind fun _ => ?_
  split
  · exact cutsShort_shortvecLen.bind fun m => cutsShort_scanLookup.repeatN m
  · exact Cuts.pure ()

theorem cutsShort_scanVersion (messageFirst : UInt8) : CutsShort (scanVersion messageFirst) := by
  unfold scanVersion
  split
  · exact Cuts.pure _
  · split
    · exact cutsShort_u8.bind fun _ => Cuts.pure _
    · exact Cuts.fail _

theorem cutsShort_scanLegacyOrV0 (start : ℕ) : CutsShort (scanLegacyOrV0 start) := by
  refine cutsShort_shortvecLen.bind fun numSignatures => Cuts.offset.bind fun here => ?_
  refine (Cuts.take _).bind fun _ => Cuts.peek.bind fun messageFirst => ?_
  refine (cutsShort_scanVersion messageFirst).bind fun version => (cutsShort_scanMessage version).bind fun _ => ?_
  exact (Cuts.spanFrom start).bind fun bytes => Cuts.pure _

theorem cutsShort_scanV1 (start : ℕ) : CutsShort (scanV1 start) := by
  refine cutsShort_u8.bind fun _ => cutsShort_u8.bind fun numSignatures => (Cuts.take 2).bind fun _ => ?_
  refine cutsShort_u32.bind fun mask => ?_
  split
  · exact Cuts.fail _
  · refine (Cuts.take 32).bind fun _ => cutsShort_u8.bind fun numInstructions => cutsShort_u8.bind fun numKeys => ?_
    refine (Cuts.take _).bind fun _ => (Cuts.take _).bind fun _ => (Cuts.chunks 4 _).bind fun headers => ?_
    refine (Cuts.take _).bind fun _ => Cuts.offset.bind fun here => (Cuts.take _).bind fun _ => ?_
    exact (Cuts.spanFrom start).bind fun bytes => Cuts.pure _

theorem cutsShort_scanTransaction : CutsShort scanTransaction := by
  refine Cuts.offset.bind fun start => Cuts.peek.bind fun first => ?_
  split
  · exact cutsShort_scanLegacyOrV0 start
  · split
    · exact cutsShort_scanV1 start
    · exact Cuts.fail _

theorem cutsShort_scanEntry : CutsShort scanEntry := by
  refine cutsShort_u64.bind fun numHashes => (Cuts.take 32).bind fun hash => cutsShort_u64.bind fun count => ?_
  refine Cuts.offset.bind fun start => ((cutsShort_scanTransaction.map _).repeatN count).bind fun _ => ?_
  exact (Cuts.spanFrom start).bind fun transactions => Cuts.pure _

/-! ### Cut segments -/

theorem flatMap_take_mono {α β : Type} (enc : α → List β) (as : List α) {i j : ℕ} (h : i ≤ j) :
    ((as.take i).flatMap enc).length ≤ ((as.take j).flatMap enc).length := by
  have hsplit : as.take j = as.take i ++ (as.take j).drop i := by
    have htake : (as.take j).take i = as.take i := by rw [List.take_take, Nat.min_eq_left h]
    rw [← htake, List.take_append_drop]
  rw [hsplit, List.flatMap_append, List.length_append]
  exact Nat.le_add_right _ _

/-- A segment on which the iterator gets to the end, cut after `k` bytes. -/
theorem truncation_detected {segment : Bytes} {it : Iter} {views : List EntryView} (hit : entries segment = .ok it)
    (hitems : it.items scanEntry = views.map .ok) (k : ℕ) :
    (it.endOf scanEntry views.length ≤ k →
      ∃ it', entries (segment.take k) = .ok it' ∧ it'.items scanEntry = views.map .ok) ∧
    (k < it.endOf scanEntry views.length → (∃ o, entries (segment.take k) = .error (.truncated o)) ∨
      ∃ it' j o, entries (segment.take k) = .ok it' ∧ j < views.length ∧
        (∀ i ≤ views.length, it.endOf scanEntry i ≤ k ↔ i ≤ j) ∧
        it'.items scanEntry = (views.take j).map .ok ++ [.error (.truncated o)]) := by
  obtain ⟨n, rest, hn, rfl, rfl⟩ := entries_ok hit
  rw [Iter.items_eq_scanAll] at hitems
  obtain ⟨rfl, hvalid, after, rfl⟩ := codec_scanEntry.scanAll_exact hitems
  have hend := fun {i} hi => Iter.endOf_eq codec_scanEntry hvalid (leBytes 8 views.length) after (n := i) hi le_rfl
  obtain ⟨hcount, hnocount⟩ := codec_u64.run_cut cutsShort_u64 hn [] (views.flatMap EntryView.encode ++ after) (Nat.zero_le k)
  by_cases hk : (leBytes 8 views.length).length ≤ k
  · have hentries : entries ((leBytes 8 views.length ++ (views.flatMap EntryView.encode ++ after)).take k) =
        .ok ⟨cut ⟨leBytes 8 views.length ++ (views.flatMap EntryView.encode ++ after), (leBytes 8 views.length).length⟩ k,
          views.length⟩ := by
      have hrun := hcount hk
      rw [entries]
      exact hrun ▸ rfl
    obtain ⟨hall, hsome⟩ := codec_scanEntry.scanAll_cut cutsShort_scanEntry hvalid (leBytes 8 views.length) after hk
    rw [hend le_rfl, List.take_length]
    refine ⟨fun hle => ⟨_, hentries, ?_⟩, fun hlt => .inr ?_⟩
    · rw [Iter.items_eq_scanAll]
      exact hall hle
    · obtain ⟨j, hj, o, hge, hlt', hscan⟩ := hsome hlt
      refine ⟨_, j, o, hentries, hj, fun i hi => ?_, ?_⟩
      · rw [hend hi]
        simp only [List.length_append] at hge hlt' ⊢
        constructor
        · intro hle
          by_contra hji
          have hnext : j + 1 ≤ i := Nat.not_le.mp hji
          have hmono := flatMap_take_mono EntryView.encode views hnext
          omega
        · intro hij
          have hmono := flatMap_take_mono EntryView.encode views hij
          omega
      · rw [Iter.items_eq_scanAll]
        exact hscan
  · obtain ⟨o, herr⟩ := hnocount (Nat.not_le.mp hk)
    refine ⟨fun hle => ?_, fun _ => .inl ⟨o, ?_⟩⟩
    · rw [hend le_rfl, List.length_append] at hle
      omega
    · rw [entries]
      exact herr ▸ rfl

/-- A cut inside the second entry. -/
theorem truncation_detected_sample : ∃ it, entries (encodeSegment sampleEntries ++ [7]) = .ok it ∧
    let views := sampleEntries.map Entry.view
    it.items scanEntry = views.map .ok ∧
    (it.endOf scanEntry views.length ≤ 60 → ∃ it', entries ((encodeSegment sampleEntries ++ [7]).take 60) = .ok it' ∧
      it'.items scanEntry = views.map .ok) ∧
    (60 < it.endOf scanEntry views.length →
      (∃ o, entries ((encodeSegment sampleEntries ++ [7]).take 60) = .error (.truncated o)) ∨
      ∃ it' j o, entries ((encodeSegment sampleEntries ++ [7]).take 60) = .ok it' ∧ j < views.length ∧
        (∀ i ≤ views.length, it.endOf scanEntry i ≤ 60 ↔ i ≤ j) ∧
        it'.items scanEntry = (views.take j).map .ok ++ [.error (.truncated o)]) := by
  obtain ⟨it, hit, hitems⟩ := entries_encodeSegment (by decide) sampleEntries_wellFormed [7]
  exact ⟨it, hit, hitems, truncation_detected hit hitems 60⟩

end Deshred
