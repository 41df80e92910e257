import Deshred.Decoding
import Deshred.Fates
import Deshred.Isolation

/-!
# Every datagram is counted once (stats.rs)

A push counts its datagram under one heading, or stores its shred. The counters are
those of the headings over a run, modulo 2^64. Those of the batches are about the runs
that were put together: all of them, the ones that are block markers, the ones that do
not decode, and what is in the others.
-/

namespace Deshred
variable {E : Type}

namespace SlotState
variable [Hasher]

/- The numbers of data shreds that came in themselves, call by call. -/
def arrivals (s : SlotState × Stats) (input : Shred × Option ReedSolomon) : List ℕ := [s.1.arrived input.1]

/-- A slot has the data shreds that came in and those that were recovered, each once. -/
theorem received_counted (stats : Stats) (inputs : List (Shred × Option ReedSolomon)) {s : SlotState × Stats}
    {out : List Segment} (h : insertAll stats inputs = .ok (s, out)) :
    s.2.recovered + UInt64.ofNat (Steps.shareOf insertStep arrivals (SlotState.empty, stats) inputs).sum =
      stats.recovered + UInt64.ofNat s.1.received.ones.card := by
  refine Steps.runAll_induct (P := fun inputs s _ =>
    s.2.recovered + UInt64.ofNat (Steps.shareOf insertStep arrivals (SlotState.empty, stats) inputs).sum =
      stats.recovered + UInt64.ofNat s.1.received.ones.card) (by simp [Steps.shareOf, SlotState.empty]) ?_ h
  intro inputs s os input s' out hrun ih hstep
  have hI := insertAll_inv hrun
  have hok := insertStep_ok.mp hstep
  obtain ⟨_, mid, fresh, hstore, hins⟩ := insert_spec hI (fecSetIndex_of_insert hok) hok
  have hmarks := hins.marks hI
  have hcounts := (store_counts_once hstore).recovered
  have hones : s'.1.received.ones = s.1.received.ones ∪ fresh.toFinset := by
    ext j
    rw [hins.received, hmarks.received, Finset.mem_union, List.mem_toFinset]
  have hcard : s'.1.received.ones.card = s.1.received.ones.card + fresh.length := by
    rw [hones, Finset.card_union_of_disjoint, List.toFinset_card_of_nodup hmarks.nodup]
    rw [Finset.disjoint_left]
    exact fun j hj hf => hmarks.unseen j (List.mem_toFinset.mp hf) hj
  rw [Steps.shareOf_snoc hrun hstep, List.sum_append, hcard, UInt64.ofNat_add, UInt64.ofNat_add]
  have hone : (arrivals s input).sum = s.1.arrived input.1 := by simp [arrivals]
  rw [hone, UInt64.add_comm (UInt64.ofNat _) (UInt64.ofNat (s.1.arrived input.1)), ← UInt64.add_assoc, hcounts,
    UInt64.add_assoc, UInt64.add_comm (UInt64.ofNat fresh.length), ← UInt64.add_assoc, ih, UInt64.add_assoc]

omit [Hasher] in
/-- A set that is recovered, and the first shred of the next one. -/
theorem received_counted_recovery :
    let inputs := carriedPlaces.map fun a => @carriedInput sha256Hasher 7 sampleSlot_lt [] nil_fits a.1 a.2
    ∃ s out, @insertAll sha256Hasher Stats.default inputs = .ok (s, out) ∧ s.1.received.ones = Finset.range 33 ∧
      s.2.recovered + UInt64.ofNat (Steps.shareOf (@insertStep sha256Hasher) (@arrivals sha256Hasher)
        (SlotState.empty, Stats.default) inputs).sum = 33 := by
  let : Hasher := sha256Hasher
  intro inputs
  obtain ⟨s, out, hrun, hones, _⟩ := carriedPlaces_emits sampleSlot_lt nil_fits Stats.default
  refine ⟨s, out, hrun, hones, (received_counted Stats.default inputs hrun).trans ?_⟩
  rw [hones, Finset.card_range]
  rfl

end SlotState

theorem tally_count (fates : List Fate) (fate heading : Fate) :
    UInt64.ofNat ((fates ++ [fate]).count heading) = UInt64.ofNat (fates.count heading) + fate.tally heading := by
  rw [List.count_append, UInt64.ofNat_add, List.count_singleton, Fate.tally]
  by_cases h : fate = heading
  · simp [h]
  · simp [h]

def BlockData.isBlockMarker : BlockData E → Bool
  | .blockMarker => true
  | .entries _ => false

namespace Deshredder

/- The runs that are block markers, and those that do not decode. -/
def blockMarkersIn (wincode : Wincode E) (raws : List RawBatch) : ℕ :=
  raws.countP fun raw => (decode wincode raw.bytes).any BlockData.isBlockMarker

def decodeErrorsIn (wincode : Wincode E) (raws : List RawBatch) : ℕ :=
  raws.countP fun raw => (decode wincode raw.bytes).isNone

theorem blockMarkersIn_append (wincode : Wincode E) (raws raws' : List RawBatch) :
    blockMarkersIn wincode (raws ++ raws') = blockMarkersIn wincode raws + blockMarkersIn wincode raws' :=
  List.countP_append

theorem decodeErrorsIn_append (wincode : Wincode E) (raws raws' : List RawBatch) :
    decodeErrorsIn wincode (raws ++ raws') = decodeErrorsIn wincode raws + decodeErrorsIn wincode raws' :=
  List.countP_append

/- What decoding the runs of one push does to the counters. -/
structure DecodeCounts (wincode : Wincode E) (stats stats' : Stats) (raws : List RawBatch) (out : List (EntryBatch E)) :
    Prop where
  stats_eq : stats' = { stats with
    blockMarkers := stats'.blockMarkers, decodeErrors := stats'.decodeErrors, entries := stats'.entries,
    transactions := stats'.transactions }
  out_eq : out = raws.flatMap (batchesOf wincode)
  runs : raws.length = out.length + blockMarkersIn wincode raws + decodeErrorsIn wincode raws
  blockMarkers : stats'.blockMarkers = stats.blockMarkers + UInt64.ofNat (blockMarkersIn wincode raws)
  decodeErrors : stats'.decodeErrors = stats.decodeErrors + UInt64.ofNat (decodeErrorsIn wincode raws)
  entries : stats'.entries = stats.entries + UInt64.ofNat (out.map fun b => b.entries.length).sum
  transactions : stats'.transactions =
    stats.transactions + UInt64.ofNat (out.map fun b => (b.entries.map wincode.transactions).sum).sum

theorem DecodeCounts.trans {wincode : Wincode E} {stats stats₁ stats₂ : Stats} {raws raws₁ : List RawBatch}
    {out out₁ : List (EntryBatch E)} (h : DecodeCounts wincode stats stats₁ raws out)
    (h₁ : DecodeCounts wincode stats₁ stats₂ raws₁ out₁) :
    DecodeCounts wincode stats stats₂ (raws ++ raws₁) (out ++ out₁) where
  stats_eq := by rw [h₁.stats_eq, h.stats_eq]
  out_eq := by rw [h.out_eq, h₁.out_eq, List.flatMap_append]
  runs := by
    have hr := h.runs
    have hr₁ := h₁.runs
    simp only [List.length_append, blockMarkersIn_append, decodeErrorsIn_append]
    omega
  blockMarkers := by
    rw [h₁.blockMarkers, h.blockMarkers, blockMarkersIn_append, UInt64.ofNat_add, UInt64.add_assoc]
  decodeErrors := by
    rw [h₁.decodeErrors, h.decodeErrors, decodeErrorsIn_append, UInt64.ofNat_add, UInt64.add_assoc]
  entries := by
    rw [h₁.entries, h.entries, List.map_append, List.sum_append, UInt64.ofNat_add, UInt64.add_assoc]
  transactions := by
    rw [h₁.transactions, h.transactions, List.map_append, List.sum_append, UInt64.ofNat_add, UInt64.add_assoc]

theorem onRaw_decodeCounts (wincode : Wincode E) (stats : Stats) (raw : RawBatch) :
    DecodeCounts wincode stats (onRaw wincode stats raw).1 [raw] (onRaw wincode stats raw).2 := by
  unfold onRaw
  cases hdecode : decode wincode raw.bytes with
  | none =>
    have hmarker : blockMarkersIn wincode [raw] = 0 := by simp [blockMarkersIn, hdecode]
    have herror : decodeErrorsIn wincode [raw] = 1 := by simp [decodeErrorsIn, hdecode]
    exact ⟨rfl, by simp [batchesOf, hdecode], by rw [hmarker, herror]; rfl, by rw [hmarker]; simp,
      by rw [herror]; rfl, by simp, by simp⟩
  | some data =>
    have herror : decodeErrorsIn wincode [raw] = 0 := by simp [decodeErrorsIn, hdecode]
    cases data with
    | entries entries =>
      have hmarker : blockMarkersIn wincode [raw] = 0 := by
        simp [blockMarkersIn, hdecode, BlockData.isBlockMarker]
      exact ⟨rfl, by simp [batchesOf, hdecode], by rw [hmarker, herror]; rfl, by rw [hmarker]; simp,
        by rw [herror]; simp, by simp, by simp⟩
    | blockMarker =>
      have hmarker : blockMarkersIn wincode [raw] = 1 := by
        simp [blockMarkersIn, hdecode, BlockData.isBlockMarker]
      exact ⟨rfl, by simp [batchesOf, hdecode], by rw [hmarker, herror]; rfl, by rw [hmarker]; rfl,
        by rw [herror]; simp, by simp, by simp⟩

theorem onRaws_decodeCounts (wincode : Wincode E) (stats : Stats) (raws : List RawBatch) :
    DecodeCounts wincode stats (onRaws wincode stats raws).1 raws (onRaws wincode stats raws).2 := by
  induction raws generalizing stats with
  | nil =>
    exact ⟨rfl, rfl, rfl, (UInt64.add_zero _).symm, (UInt64.add_zero _).symm, (UInt64.add_zero _).symm,
      (UInt64.add_zero _).symm⟩
  | cons raw raws ih => exact (onRaw_decodeCounts wincode stats raw).trans (ih _)

variable [Hasher] {d d' : Deshredder} {wincode : Wincode E} {packet : Bytes}

theorem push_counts_once {out : List (EntryBatch E)} (h : d.push wincode packet = .ok (d', out)) :
    ∃ d₁ raws, d.pushRaw packet = .ok (d₁, raws) ∧ DecodeCounts wincode d₁.stats d'.stats raws out := by
  unfold push at h
  split at h
  · contradiction
  · rename_i d₁ raws hraw
    cases h
    exact ⟨d₁, raws, hraw, onRaws_decodeCounts wincode d₁.stats raws⟩

/-- The counters after a run, from what became of each datagram, the runs that were put
together and the batches that came out. -/
structure Accounts (wincode : Wincode E) (stats : Stats) (fates : List Fate) (raws : List RawBatch)
    (out : List (EntryBatch E)) : Prop where
  packets : stats.packets = UInt64.ofNat fates.length
  invalid : stats.invalid = UInt64.ofNat (fates.count .invalid)
  wrongVersion : stats.wrongVersion = UInt64.ofNat (fates.count .wrongVersion)
  stale : stats.stale = UInt64.ofNat (fates.count .stale)
  duplicates : stats.duplicates = UInt64.ofNat (fates.count .duplicate)
  unneeded : stats.unneeded = UInt64.ofNat (fates.count .unneeded)
  rejected : stats.rejected = UInt64.ofNat (fates.count .rejected)
  out_eq : out = raws.flatMap (batchesOf wincode)
  batches : stats.batches = UInt64.ofNat raws.length
  blockMarkers : stats.blockMarkers = UInt64.ofNat (blockMarkersIn wincode raws)
  decodeErrors : stats.decodeErrors = UInt64.ofNat (decodeErrorsIn wincode raws)
  runs : raws.length = out.length + blockMarkersIn wincode raws + decodeErrorsIn wincode raws
  entries : stats.entries = UInt64.ofNat (out.map fun b => b.entries.length).sum
  transactions : stats.transactions = UInt64.ofNat (out.map fun b => (b.entries.map wincode.transactions).sum).sum
  dropped : stats.dropped = 0

/- One push more. -/
theorem Accounts.push {fates : List Fate} {raws raws' : List RawBatch} {out outs : List (EntryBatch E)} {d₁ : Deshredder}
    (hA : Accounts wincode d.stats fates raws out) (hraw : d.pushRaw packet = .ok (d₁, raws'))
    (hdecode : DecodeCounts wincode d₁.stats d'.stats raws' outs) :
    Accounts wincode d'.stats (fates ++ [d.fate packet]) (raws ++ raws') (out ++ outs) := by
  have hcounts := pushRaw_counts_once hraw
  have hstats := hdecode.stats_eq
  refine ⟨?_, ?_, ?_, ?_, ?_, ?_, ?_, ?_, ?_, ?_, ?_, ?_, ?_, ?_, ?_⟩
  · rw [List.length_append, UInt64.ofNat_add, ← hA.packets]
    exact (congrArg Stats.packets hstats).trans (congrArg Stats.packets hcounts)
  · rw [tally_count, ← hA.invalid]
    exact (congrArg Stats.invalid hstats).trans (congrArg Stats.invalid hcounts)
  · rw [tally_count, ← hA.wrongVersion]
    exact (congrArg Stats.wrongVersion hstats).trans (congrArg Stats.wrongVersion hcounts)
  · rw [tally_count, ← hA.stale]
    exact (congrArg Stats.stale hstats).trans (congrArg Stats.stale hcounts)
  · rw [tally_count, ← hA.duplicates]
    exact (congrArg Stats.duplicates hstats).trans (congrArg Stats.duplicates hcounts)
  · rw [tally_count, ← hA.unneeded]
    exact (congrArg Stats.unneeded hstats).trans (congrArg Stats.unneeded hcounts)
  · rw [tally_count, ← hA.rejected]
    exact (congrArg Stats.rejected hstats).trans (congrArg Stats.rejected hcounts)
  · rw [hA.out_eq, hdecode.out_eq, List.flatMap_append]
  · rw [List.length_append, UInt64.ofNat_add, ← hA.batches]
    exact (congrArg Stats.batches hstats).trans (congrArg Stats.batches hcounts)
  · have hmarkers : d₁.stats.blockMarkers = d.stats.blockMarkers :=
      (congrArg Stats.blockMarkers hcounts).trans rfl
    rw [hdecode.blockMarkers, hmarkers, hA.blockMarkers, blockMarkersIn_append, UInt64.ofNat_add]
  · have herrors : d₁.stats.decodeErrors = d.stats.decodeErrors :=
      (congrArg Stats.decodeErrors hcounts).trans rfl
    rw [hdecode.decodeErrors, herrors, hA.decodeErrors, decodeErrorsIn_append, UInt64.ofNat_add]
  · have hruns := hA.runs
    have hruns' := hdecode.runs
    simp only [List.length_append, blockMarkersIn_append, decodeErrorsIn_append]
    omega
  · have hentries : d₁.stats.entries = d.stats.entries :=
      (congrArg Stats.entries hcounts).trans rfl
    rw [hdecode.entries, hentries, hA.entries, List.map_append, List.sum_append, UInt64.ofNat_add]
  · have htransactions : d₁.stats.transactions = d.stats.transactions :=
      (congrArg Stats.transactions hcounts).trans rfl
    rw [hdecode.transactions, htransactions, hA.transactions, List.map_append, List.sum_append, UInt64.ofNat_add]
  · rw [← hA.dropped]
    exact (congrArg Stats.dropped hstats).trans ((congrArg Stats.dropped hcounts).trans rfl)

omit [Hasher] in
theorem headings_total (fates : List Fate) : fates.length = fates.count .invalid + fates.count .wrongVersion +
    fates.count .stale + fates.count .duplicate + fates.count .unneeded + fates.count .rejected +
    fates.count .stored := by
  induction fates with
  | nil => rfl
  | cons fate fates ih =>
    rw [List.length_cons]
    cases fate with
    | _ =>
      simp
      omega

/- What became of the datagrams of a run, in order. -/
def fates (wincode : Wincode E) (config : Config) (rs : ReedSolomon) (packets : List Bytes) : List Fate :=
  Steps.shareOf (fun d packet => d.push wincode packet) (fun d packet => [d.fate packet]) (new config rs) packets

theorem fates_cons {out : List (EntryBatch E)} (h : d.push wincode packet = .ok (d', out)) (packets : List Bytes) :
    Steps.shareOf (fun d packet => d.push wincode packet) (fun d packet => [d.fate packet]) d (packet :: packets) =
      d.fate packet :: Steps.shareOf (fun d packet => d.push wincode packet) (fun d packet => [d.fate packet]) d' packets :=
  Steps.shareOf_cons h packets

theorem fates_snoc {config : Config} {rs : ReedSolomon} {packets : List Bytes} {out outs : List (EntryBatch E)}
    (h : pushEach wincode (new config rs) packets = .ok (d, out)) (hstep : d.push wincode packet = .ok (d', outs)) :
    fates wincode config rs (packets ++ [packet]) = fates wincode config rs packets ++ [d.fate packet] :=
  Steps.shareOf_snoc h hstep

theorem pushEach_accounts {config : Config} {rs : ReedSolomon} {packets : List Bytes} {out : List (EntryBatch E)}
    (h : pushEach wincode (new config rs) packets = .ok (d, out)) :
    ∃ d₀ raws, (new config rs).pushAll packets = .ok (d₀, raws) ∧ SameButStats d₀ d ∧
      (fates wincode config rs packets).length = packets.length ∧
      Accounts wincode d.stats (fates wincode config rs packets) raws out := by
  refine Steps.runAll_induct (P := fun packets d out => ∃ d₀ raws, (new config rs).pushAll packets = .ok (d₀, raws) ∧
    SameButStats d₀ d ∧ (fates wincode config rs packets).length = packets.length ∧
    Accounts wincode d.stats (fates wincode config rs packets) raws out) ?_ ?_ h
  · exact ⟨_, [], rfl, ⟨rfl, rfl, rfl, rfl⟩, rfl, rfl, rfl, rfl, rfl, rfl, rfl, rfl, rfl, rfl, rfl, rfl, rfl, rfl, rfl, rfl⟩
  · intro packets d out packet d' outs hrun hP hstep
    obtain ⟨d₀, raws, hraws, hsame, hlen, hA⟩ := hP
    obtain ⟨d₁, raws', hraw, hdecode⟩ := push_counts_once hstep
    obtain ⟨_, _, hraw', hsame', _⟩ := push_ok hstep
    rw [hraw] at hraw'
    cases hraw'
    obtain ⟨d₀', hraws', hsame₀⟩ := hsame.pushAll_snoc hraws hraw
    refine ⟨d₀', raws ++ raws', hraws', hsame₀.trans hsame', ?_⟩
    rw [fates_snoc hrun hstep, List.length_append, List.length_append, hlen]
    exact ⟨rfl, hA.push hraw hdecode⟩

/-- Every datagram of a run is counted under exactly one heading, or its shred was
stored. The counters of the batches are those of the runs that assembly alone puts
together from the same datagrams. -/
theorem every_datagram_counted (config : Config) (rs : ReedSolomon) (wincode : Wincode E) (packets : List Bytes)
    {out : List (EntryBatch E)} (h : pushEach wincode (new config rs) packets = .ok (d, out)) :
    ∃ d₀ raws, (new config rs).pushAll packets = .ok (d₀, raws) ∧ SameButStats d₀ d ∧
      (fates wincode config rs packets).length = packets.length ∧
      Accounts wincode d.stats (fates wincode config rs packets) raws out ∧
      d.stats.batches = UInt64.ofNat out.length + d.stats.blockMarkers + d.stats.decodeErrors ∧
      d.stats.packets = d.stats.invalid + d.stats.wrongVersion + d.stats.stale + d.stats.duplicates + d.stats.unneeded +
        d.stats.rejected + UInt64.ofNat ((fates wincode config rs packets).count .stored) := by
  obtain ⟨d₀, raws, hraws, hsame, hlen, hA⟩ := pushEach_accounts h
  refine ⟨d₀, raws, hraws, hsame, hlen, hA, ?_, ?_⟩
  · rw [hA.batches, hA.runs, hA.blockMarkers, hA.decodeErrors]
    simp only [UInt64.ofNat_add]
  · rw [hA.packets, headings_total, hA.invalid, hA.wrongVersion, hA.stale, hA.duplicates, hA.unneeded, hA.rejected]
    simp only [UInt64.ofNat_add]

theorem fate_of_emits {out : List (EntryBatch E)} (h : d.push wincode packet = .ok (d', out)) (hne : out ≠ []) :
    d.fate packet = .stored := by
  obtain ⟨d₁, raws, hraw, _, rfl, _⟩ := push_ok h
  have hraws : raws ≠ [] := by
    rintro rfl
    exact hne rfl
  cases pushRaw_cases hraw with
  | dropped stats hno => exact absurd rfl hraws
  | inserted x state stats stats' segments hx hins =>
    rw [fate_admitted hx]
    refine SlotState.fate_of_emits hins ?_
    rintro rfl
    exact hraws rfl

theorem Primed.fate_again {n : ℕ} (h : Primed n d) {k : Fin 32} (hk : (k : ℕ) < n) :
    d.fate (samplePacket (0, .data k)) = .duplicate := by
  obtain ⟨ps, out, hps, hD⟩ := h.delivering
  have hx : FromLeader sampleBlocks 7 64 (samplePacket (0, .data k)) _ :=
    carriedPacket_fromLeader sampleSlot_lt sampleRun_fits (.inl rfl) 64
  have hadm := hD.admitted (by decide) (carriedBlocks_consistent sampleSlot_lt sampleRun_fits) (.inl rfl) hx
  have hset := (carriedSet_consistent sampleSlot_lt sampleRun_fits 0).fecSetIndex (.data k)
  have hslot := (carriedSet_consistent sampleSlot_lt sampleRun_fits 0).slot (.data k)
  obtain ⟨hkind, hindex, _⟩ :=
    ((carriedSet sampleSlot_lt 0 sampleRun_fits).shred (.data k)).position_data
      ((carriedSet_consistent sampleSlot_lt sampleRun_fits 0).position (.data k))
  rw [fate_admitted hadm]
  refine if_pos ⟨(Shred.isData_iff _).mpr hkind, ?_⟩
  rw [FixedBits.contains_iff, hslot, (hD.tracks 7).received, hindex, hset, sampleBlocks_slot]
  exact (firstDatas_first h.le hps _).mpr (by simpa using hk)

omit [Hasher] in
/-- An empty datagram, and two data shreds, the first one twice. -/
theorem every_datagram_counted_two_batches :
    let : Hasher := sha256Hasher
    let packets := [[], samplePacket (0, .data 0), samplePacket (0, .data 0), samplePacket (0, .data 1)]
    ∃ d raws, pushEach layoutDecoder (new ⟨none, 64, true⟩ sampleRs) packets = .ok (d, [sampleBatch 0, sampleBatch 1]) ∧
      fates layoutDecoder ⟨none, 64, true⟩ sampleRs packets = [.invalid, .stored, .duplicate, .stored] ∧
      Accounts layoutDecoder d.stats [.invalid, .stored, .duplicate, .stored] raws [sampleBatch 0, sampleBatch 1] ∧
      d.stats.packets = 4 ∧ d.stats.entries = 4 ∧ d.stats.transactions = 2 := by
  let : Hasher := sha256Hasher
  intro _ packets
  obtain ⟨d₀, hpush₀, hsame₀⟩ : ∃ d₀, (new ⟨none, 64, true⟩ sampleRs).push layoutDecoder [] = .ok (d₀, []) ∧
      SameButStats (new ⟨none, 64, true⟩ sampleRs) d₀ := ⟨_, rfl, rfl, rfl, rfl, rfl⟩
  obtain ⟨d₁, hpush₁, hP₁⟩ := (Primed.new.same hsame₀).next (Nat.succ_pos 31)
  obtain ⟨d₂, hpush₂, hP₂⟩ := hP₁.again (k := 0) Nat.one_pos
  obtain ⟨d₃, hpush₃, _⟩ := hP₂.next (show 1 < 32 by decide)
  have hpush₁ : d₀.push layoutDecoder (samplePacket (0, .data 0)) = .ok (d₁, [sampleBatch 0]) := hpush₁
  have hpush₂ : d₁.push layoutDecoder (samplePacket (0, .data 0)) = .ok (d₂, []) := hpush₂
  have hpush₃ : d₂.push layoutDecoder (samplePacket (0, .data 1)) = .ok (d₃, [sampleBatch 1]) := hpush₃
  have hrun : pushEach layoutDecoder (new ⟨none, 64, true⟩ sampleRs) packets = .ok (d₃, [sampleBatch 0, sampleBatch 1]) :=
    Steps.runAll_cons_ok.mpr ⟨_, _, _, hpush₀, Steps.runAll_cons_ok.mpr ⟨_, _, _, hpush₁,
      Steps.runAll_cons_ok.mpr ⟨_, _, _, hpush₂, Steps.runAll_singleton_ok.mpr hpush₃, rfl⟩, rfl⟩, rfl⟩
  have hfates : fates layoutDecoder ⟨none, 64, true⟩ sampleRs packets = [.invalid, .stored, .duplicate, .stored] := by
    have h₁ : d₀.fate (samplePacket (0, .data 0)) = .stored := fate_of_emits hpush₁ (List.cons_ne_nil _ _)
    have h₂ : d₁.fate (samplePacket (0, .data 0)) = .duplicate := hP₁.fate_again (k := 0) Nat.one_pos
    have h₃ : d₂.fate (samplePacket (0, .data 1)) = .stored := fate_of_emits hpush₃ (List.cons_ne_nil _ _)
    rw [fates, fates_cons hpush₀, fates_cons hpush₁, fates_cons hpush₂, fates_cons hpush₃, h₁, h₂, h₃]
    rfl
  obtain ⟨_, raws, _, _, _, hA, _⟩ := every_datagram_counted ⟨none, 64, true⟩ sampleRs layoutDecoder packets hrun
  rw [hfates] at hA
  exact ⟨d₃, raws, hrun, hfates, hA, hA.packets, hA.entries, hA.transactions⟩

end Deshredder
end Deshred
