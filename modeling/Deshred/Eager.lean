import Deshred.Delivery
import Deshred.Emission

/-!
# Recovering at once, and waiting for the data shreds

Two runs over the same leader shreds, one with recovery and one without. As long as
the eager run has not left a slot behind, it holds every data shred there that the
waiting run holds, and has handed out every run it holds.
-/

namespace Deshred

namespace SlotState
variable [Hasher] {state mid : SlotState} {x : Shred} {fresh : List ℕ}

theorem Stored.fresh_plain (h : Stored state x none mid fresh) : ∀ i ∈ fresh, x.kind = .data ∧ i = x.index := by
  cases h with
  | dropped _ => simp
  | turnedAway why _ _ _ _ => simp
  | taken mid fresh root set' indexes ht =>
    have hidle : indexes = [] := (ht.recovering.of_idle (by simp)).2
    intro i hi
    rw [ht.fresh_eq, hidle, List.append_nil] at hi
    split at hi
    · rename_i hd
      exact ⟨x.isData_iff.mp hd, List.mem_singleton.mp hi⟩
    · contradiction

end SlotState

/-- A run of one slot is a run of another that holds its shreds and the one before. -/
theorem Tracks.run_of_received [Hasher] {B : Block} {recover₀ recover₁ : Bool} {A₀ A₁ : ℕ → Finset Position}
    {state₀ state₁ : SlotState} {s e : ℕ} (hI₀ : state₀.Assembling) (hI₁ : state₁.Assembling)
    (h₀ : Tracks B recover₀ A₀ state₀) (h₁ : Tracks B recover₁ A₁ state₁) (hr : state₀.Run s e)
    (h : ∀ i, s - 1 ≤ i → i ≤ e → i ∈ state₀.received.ones → i ∈ state₁.received.ones) : state₁.Run s e := by
  have hd := (h₀.run_iff hI₀ s e).mp hr
  rw [h₁.run_iff hI₁]
  refine ⟨hd.le, fun i h1 h2 => ?_, hd.closed, hd.inner, ?_⟩
  · exact (h₁.received i).mp (h i (by omega) h2 (hr.present i h1 h2))
  · rcases hd.starts with hzero | ⟨hav, hcl⟩
    · exact .inl hzero
    · have hle := hd.le
      exact .inr ⟨(h₁.received _).mp (h _ le_rfl (by omega) ((h₀.received _).mpr hav)), hcl⟩

namespace Deshredder

variable [Hasher]
variable {blocks : ℕ → Block} {config : Config} {rs : ReedSolomon} {L t i : ℕ} {packet : Bytes} {x : Shred}
  {d d' : Deshredder} {out out' : List RawBatch} {Codeword : List Bytes → Prop}

omit [Hasher] in
/- A datagram with a shred of one of the blocks, of a slot on which no addition wraps. -/
structure Drawn (blocks : ℕ → Block) (L : ℕ) (packet : Bytes) (x : Shred) : Prop where
  parsed : Shred.parse packet = .ok x
  sent : (blocks x.slot).Sends x
  range : x.slot + L < 2 ^ 64

omit [Hasher] in
theorem Drawn.inRange (h : Drawn blocks L packet x) : InRange L packet := by
  intro y hy
  rw [Except.ok.inj (hy.symm.trans h.parsed)]
  exact h.range

theorem Drawn.returns (h : Drawn blocks L packet x) (hB : ∀ t, (blocks t).ConsistentSets Codeword t)
    (hI : SlotsInv d) : ∃ r, d.pushRaw packet = .ok r := by
  refine (pushRaw_ok_iff hI packet).mpr fun y hy _ => ?_
  obtain rfl : y = x := Except.ok.inj (hy.parsed.symm.trans h.parsed)
  obtain ⟨S, hS, _⟩ := h.sent
  obtain ⟨version, hcons⟩ := hB _ _ S hS
  exact hcons.inRange

/- What holds of a run over leader shreds, wherever its window is. Slots that were
evicted start over, so no statement is made about what arrived of them. -/
structure Assembled (blocks : ℕ → Block) (config : Config) (rs : ReedSolomon) (d : Deshredder)
    (out : List RawBatch) : Prop extends WindowInv config.slotLookback d where
  config_eq : d.config = config
  rs_eq : d.rs = rs
  tracks : ∀ t, ∃ A, Tracks (blocks t) config.recover A (d.slotState t)
  handedOut : ∀ t s e, (d.slotState t).Run s e → leaderBatch blocks t s e ∈ out

theorem Assembled.new (blocks : ℕ → Block) (config : Config) (rs : ReedSolomon) :
    Assembled blocks config rs (new config rs) [] where
  toWindowInv := WindowInv.new config rs
  config_eq := rfl
  rs_eq := rfl
  tracks t := ⟨_, Tracks.empty _ _⟩
  handedOut t s e hr := by
    have hc := hr.closed
    rw [slotState_of_not_held (by simp [Deshredder.new])] at hc
    simp [SlotState.empty] at hc

/- One leader shred `x`: what it adds to the slots still held, and what is handed out. -/
structure Added (blocks : ℕ → Block) (d : Deshredder) (packet : Bytes) (x : Shred) (d' : Deshredder)
    (out : List RawBatch) : Prop where
  highest : d.highestSlot ≤ d'.highestSlot
  keeps : ∀ t ∈ d'.slots.keys, (d.slotState t).received.ones ⊆ (d'.slotState t).received.ones
  takes : Admitted d packet x → x.kind = .data → x.slot ∈ d'.slots.keys →
    x.index ∈ (d'.slotState x.slot).received.ones
  plain : d.config.recover = false → ∀ t, ∀ i ∈ (d'.slotState t).received.ones,
    i ∈ (d.slotState t).received.ones ∨ Admitted d packet x ∧ x.kind = .data ∧ t = x.slot ∧ i = x.index
  batches : ∀ b ∈ out, (d'.slotState b.slot).Run b.shreds.1 b.shreds.2 ∧
    b = leaderBatch blocks b.slot b.shreds.1 b.shreds.2

theorem Assembled.inserted {state : SlotState} {stats stats' : Stats} {segments : List Segment}
    (h : Assembled blocks config rs d out) (hB : ∀ t, (blocks t).ConsistentSets Codeword t)
    (hrs : rs.Rebuilds Codeword) (hx : (blocks x.slot).Sends x)
    (hins : (d.slotState x.slot).insert x d.recoverWith stats = .ok (state, stats', segments)) :
    ∃ (A : ℕ → Finset Position) (fresh : List ℕ),
      Inserting (blocks x.slot) config.recover (arrive A x) (d.slotState x.slot) state segments ∧
      (∀ i, i ∈ state.received.ones ↔ i ∈ (d.slotState x.slot).received.ones ∨ i ∈ fresh) ∧
      (d.recoverWith = none → ∀ i ∈ fresh, x.kind = .data ∧ i = x.index) := by
  have hI := h.slots.slotState x.slot
  obtain ⟨A, hA⟩ := h.tracks x.slot
  obtain ⟨_, mid, fresh, _, hone⟩ := SlotState.insert_spec hI (SlotState.fecSetIndex_of_insert hins) hins
  obtain ⟨hrsome, hrnone⟩ := recoverWith_rebuilds h.config_eq h.rs_eq hrs
  have hmarks := hone.stored.marks hI.toAssembling
  refine ⟨A, fresh, hA.inserted hI (hB x.slot) hx hrsome hrnone hone, fun i => ?_, fun hnone => ?_⟩
  · rw [hone.received, hmarks.received]
  · have hst := hone.stored
    rw [hnone] at hst
    exact hst.fresh_plain

theorem Assembled.pushed (h : Assembled blocks config rs d out) (hB : ∀ t, (blocks t).ConsistentSets Codeword t)
    (hrs : rs.Rebuilds Codeword) (hx : Drawn blocks config.slotLookback packet x) (hp : Pushed d packet d' out') :
    Assembled blocks config rs d' (out ++ out') := by
  have hW := h.toWindowInv.pushed hx.inRange hp
  cases hp with
  | dropped stats _ =>
    rw [List.append_nil]
    exact ⟨hW, h.config_eq, h.rs_eq, h.tracks, h.handedOut⟩
  | inserted y state stats stats' segments hy hins =>
    obtain rfl : y = x := Except.ok.inj (hy.parsed.symm.trans hx.parsed)
    obtain ⟨A, fresh, hslot, _, _⟩ := h.inserted hB hrs hx.sent hins
    refine ⟨hW, h.config_eq, h.rs_eq, fun t => ?_, fun t s e hr => ?_⟩
    · by_cases ht : t ∈ (d.settle y.slot state stats' segments).slots.keys
      · rw [settle_slotState ht]
        split
        · rename_i heq
          rw [heq]
          exact ⟨_, hslot.tracks⟩
        · exact h.tracks t
      · rw [slotState_of_not_held ht]
        exact ⟨_, Tracks.empty _ _⟩
    · rw [settle_slotState (mem_keys_of_received (hr.present s le_rfl hr.le))] at hr
      split at hr
      · rename_i heq
        subst heq
        rcases (hslot.run_iff s e).mp hr with hold | hnew
        · exact List.mem_append_left _ (h.handedOut y.slot s e hold)
        · refine List.mem_append_right _ ((mem_leaderBatches ?_ _).mpr ⟨rfl, hnew, rfl⟩)
          exact fun seg hseg => (hslot.segments seg hseg).2
      · exact List.mem_append_left _ (h.handedOut t s e hr)

theorem Assembled.added (h : Assembled blocks config rs d out) (hL : 1 ≤ config.slotLookback)
    (h4 : 4 * config.slotLookback < 2 ^ 64) (hB : ∀ t, (blocks t).ConsistentSets Codeword t)
    (hrs : rs.Rebuilds Codeword) (hx : Drawn blocks config.slotLookback packet x) (hp : Pushed d packet d' out') :
    Added blocks d packet x d' out' := by
  have hhigh := pushed_highest_le hp
  cases hp with
  | dropped stats hno =>
    refine ⟨hhigh, fun t _ => subset_rfl, ?_, fun _ t i hi => .inl hi, by simp⟩
    exact fun hadm => absurd hadm (hno x)
  | inserted y state stats stats' segments hy hins =>
    obtain rfl : y = x := Except.ok.inj (hy.parsed.symm.trans hx.parsed)
    obtain ⟨hrange, hfresh⟩ := hy.highest_le h.toWindowInv hx.inRange
    obtain ⟨A, fresh, hslot, hreceived, hplain⟩ := h.inserted hB hrs hx.sent hins
    refine ⟨hhigh, fun t ht i hi => ?_, ?_, ?_, ?_⟩
    · rw [settle_slotState ht]
      split
      · rename_i heq
        rw [heq] at hi
        exact (hreceived i).mpr (.inl hi)
      · exact hi
    · intro _ hk ht
      obtain ⟨S, hS, _⟩ := hx.sent
      obtain ⟨p, hp⟩ := y.exists_position_data hk
      rw [settle_slotState ht, if_pos rfl, (y.position_data hp).2.1, hslot.tracks.present_iff hS y.valid.aligned,
        arrive, Function.update_self]
      left
      rw [← hp]
      exact Finset.mem_insert_self ..
    · intro hrec t i hi
      rw [settle_slotState (mem_keys_of_received hi)] at hi
      split at hi
      · rename_i heq
        rw [heq]
        rcases (hreceived i).mp hi with hold | hnew
        · exact .inl hold
        · obtain ⟨hk, hidx⟩ := hplain (by simp [recoverWith, hrec]) i hnew
          exact .inr ⟨hy, hk, rfl, hidx⟩
      · exact .inl hi
    · intro b hb
      obtain ⟨hbs, hmem, heq⟩ := (mem_leaderBatches (fun seg hseg => (hslot.segments seg hseg).2) b).mp hb
      refine ⟨?_, heq⟩
      have hne : segments ≠ [] := by
        intro hnil
        rw [hnil] at hb
        contradiction
      rw [hbs, settle_slotState (emitter_stays h.toWindowInv hL h4 hrange hfresh hne), if_pos rfl]
      exact (hslot.run_iff _ _).mpr (.inr hmem)

/-! ### The two runs -/

/-- The memory bound threw slot `t` out, which was not behind the window. -/
structure ThrownOut (L : ℕ) (d : Deshredder) (packet : Bytes) (d' : Deshredder) (t : ℕ) : Prop where
  held : t ∈ d.slots.keys ∨ ∃ x, Admitted d packet x ∧ x.slot = t
  live : d'.highestSlot ≤ t + L
  gone : t ∉ d'.slots.keys

/-- With this datagram the eager run throws slot `t` out, while the waiting run holds
data shred `i` of it. -/
def ThrowsOut (L t i : ℕ) (waiting eager : Deshredder) (packet : Bytes) : Prop :=
  ∃ waiting' out eager' out', waiting.pushRaw packet = .ok (waiting', out) ∧
    eager.pushRaw packet = .ok (eager', out') ∧ ThrownOut L eager packet eager' t ∧
    i ∈ (waiting'.slotState t).received.ones

/- It did so at some point of the sequence. -/
def ThrewOut (shredVersion : Option ℕ) (L : ℕ) (rs : ReedSolomon) (packets : List Bytes) (t i : ℕ) : Prop :=
  Steps.OccursBoth pushRaw (new ⟨shredVersion, L, false⟩ rs) (new ⟨shredVersion, L, true⟩ rs) (ThrowsOut L t i) packets

/-- The eager run has handed the batch out, or has left its slot: the window is past
the slot, or the slot was thrown out when shreds of the batch, or the shred before it,
had arrived. -/
inductive CameOrLeft (shredVersion : Option ℕ) (L : ℕ) (rs : ReedSolomon) (packets : List Bytes)
    (eager : Deshredder) (out : List RawBatch) (b : RawBatch) : Prop where
  | came (h : b ∈ out)
  | passed (h : b.slot + L < eager.highestSlot)
  | thrownOut (i : ℕ) (h1 : b.shreds.1 - 1 ≤ i) (h2 : i ≤ b.shreds.2)
      (h : ThrewOut shredVersion L rs packets b.slot i)

variable {shredVersion : Option ℕ} {packets : List Bytes} {waiting waiting' eager eager' : Deshredder}
  {new₀ new₁ out₀ out₁ : List RawBatch} {b : RawBatch}

theorem CameOrLeft.snoc (h : CameOrLeft shredVersion L rs packets eager out₁ b)
    (hhigh : eager.highestSlot ≤ eager'.highestSlot) :
    CameOrLeft shredVersion L rs (packets ++ [packet]) eager' (out₁ ++ new₁) b := by
  cases h with
  | came h => exact .came (List.mem_append_left _ h)
  | passed h => exact .passed (h.trans_le hhigh)
  | thrownOut i h1 h2 h => exact .thrownOut i h1 h2 (h.snoc packet)

/- The two runs after the same datagrams. -/
structure Compared (blocks : ℕ → Block) (shredVersion : Option ℕ) (L : ℕ) (rs : ReedSolomon) (packets : List Bytes)
    (waiting : Deshredder) (out₀ : List RawBatch) (eager : Deshredder) (out₁ : List RawBatch) : Prop where
  first : Assembled blocks ⟨shredVersion, L, false⟩ rs waiting out₀
  second : Assembled blocks ⟨shredVersion, L, true⟩ rs eager out₁
  held : ∀ t, ∀ i ∈ (waiting.slotState t).received.ones, t + L < eager.highestSlot ∨
    ThrewOut shredVersion L rs packets t i ∨ i ∈ (eager.slotState t).received.ones
  batches : ∀ b ∈ out₀, CameOrLeft shredVersion L rs packets eager out₁ b

theorem Compared.start (blocks : ℕ → Block) (shredVersion : Option ℕ) (L : ℕ) (rs : ReedSolomon) :
    Compared blocks shredVersion L rs [] (Deshredder.new ⟨shredVersion, L, false⟩ rs) []
      (Deshredder.new ⟨shredVersion, L, true⟩ rs) [] where
  first := Assembled.new ..
  second := Assembled.new ..
  held t i hi := by
    have ht := mem_keys_of_received hi
    simp [Deshredder.new] at ht
  batches := by simp

theorem Compared.admitted (h : Compared blocks shredVersion L rs packets waiting out₀ eager out₁)
    (hx : Drawn blocks L packet x) (hadm : Admitted waiting packet x) (hlive : eager.highestSlot ≤ x.slot + L) :
    Admitted eager packet x := by
  refine ⟨hadm.parsed, ?_, ?_⟩
  · have hv := hadm.version
    rw [wrongVersion, h.first.config_eq] at hv
    rw [wrongVersion, h.second.config_eq]
    exact hv
  · rw [← Bool.not_eq_true, isStale_iff h.second.slotLookback hx.range]
    exact not_lt.mpr hlive

theorem Compared.held_pushed (h : Compared blocks shredVersion L rs packets waiting out₀ eager out₁)
    (hrun₀ : (new ⟨shredVersion, L, false⟩ rs).pushAll packets = .ok (waiting, out₀))
    (hrun₁ : (new ⟨shredVersion, L, true⟩ rs).pushAll packets = .ok (eager, out₁)) (hx : Drawn blocks L packet x)
    (hok₀ : waiting.pushRaw packet = .ok (waiting', new₀)) (hok₁ : eager.pushRaw packet = .ok (eager', new₁))
    (hadd₀ : Added blocks waiting packet x waiting' new₀) (hadd₁ : Added blocks eager packet x eager' new₁) :
    ∀ t, ∀ i ∈ (waiting'.slotState t).received.ones, t + L < eager'.highestSlot ∨
      ThrewOut shredVersion L rs (packets ++ [packet]) t i ∨ i ∈ (eager'.slotState t).received.ones := by
  intro t i hi
  have hhigh := hadd₁.highest
  by_cases hpast : t + L < eager'.highestSlot
  · exact .inl hpast
  · right
    have hlive : eager.highestSlot ≤ t + L := by omega
    have hgone : (t ∈ eager.slots.keys ∨ ∃ x, Admitted eager packet x ∧ x.slot = t) → t ∉ eager'.slots.keys →
        ThrewOut shredVersion L rs (packets ++ [packet]) t i :=
      fun hheld hkey => Steps.OccursBoth.last hrun₀ hrun₁
        ⟨waiting', new₀, eager', new₁, hok₀, hok₁, ⟨hheld, by omega, hkey⟩, hi⟩
    rcases hadd₀.plain (by rw [h.first.config_eq]) t i hi with hold | ⟨hadm, hk, rfl, rfl⟩
    · rcases h.held t i hold with hp | ht | hr
      · omega
      · exact .inl (ht.snoc packet)
      · by_cases hkey : t ∈ eager'.slots.keys
        · exact .inr (hadd₁.keeps t hkey hr)
        · exact .inl (hgone (.inl (mem_keys_of_received hr)) hkey)
    · have hadm₁ := h.admitted hx hadm hlive
      by_cases hkey : x.slot ∈ eager'.slots.keys
      · exact .inr (hadd₁.takes hadm₁ hk hkey)
      · exact .inl (hgone (.inr ⟨x, hadm₁, rfl⟩) hkey)

theorem Assembled.cameOrLeft (h₀ : Assembled blocks ⟨shredVersion, L, false⟩ rs waiting out₀)
    (h₁ : Assembled blocks ⟨shredVersion, L, true⟩ rs eager out₁)
    (hheld : ∀ t, ∀ i ∈ (waiting.slotState t).received.ones, t + L < eager.highestSlot ∨
      ThrewOut shredVersion L rs packets t i ∨ i ∈ (eager.slotState t).received.ones)
    (hr : (waiting.slotState b.slot).Run b.shreds.1 b.shreds.2)
    (hb : b = leaderBatch blocks b.slot b.shreds.1 b.shreds.2) :
    CameOrLeft shredVersion L rs packets eager out₁ b := by
  by_cases hall : ∀ i, b.shreds.1 - 1 ≤ i → i ≤ b.shreds.2 → i ∈ (waiting.slotState b.slot).received.ones →
      i ∈ (eager.slotState b.slot).received.ones
  · obtain ⟨A₀, htr₀⟩ := h₀.tracks b.slot
    obtain ⟨A₁, htr₁⟩ := h₁.tracks b.slot
    have hrun := htr₀.run_of_received (h₀.slots.slotState b.slot).toAssembling
      (h₁.slots.slotState b.slot).toAssembling htr₁ hr hall
    have hmem := h₁.handedOut b.slot b.shreds.1 b.shreds.2 hrun
    rw [← hb] at hmem
    exact .came hmem
  · push Not at hall
    obtain ⟨i, h1, h2, hi, hno⟩ := hall
    rcases hheld b.slot i hi with hp | ht | hyes
    · exact .passed hp
    · exact .thrownOut i h1 h2 ht
    · exact absurd hyes hno

theorem Compared.pushed (h : Compared blocks shredVersion L rs packets waiting out₀ eager out₁) (hL : 1 ≤ L)
    (h4 : 4 * L < 2 ^ 64) (hB : ∀ t, (blocks t).ConsistentSets Codeword t) (hrs : rs.Rebuilds Codeword)
    (hrun₀ : (new ⟨shredVersion, L, false⟩ rs).pushAll packets = .ok (waiting, out₀))
    (hrun₁ : (new ⟨shredVersion, L, true⟩ rs).pushAll packets = .ok (eager, out₁)) (hx : Drawn blocks L packet x) :
    ∃ waiting' new₀ eager' new₁, waiting.pushRaw packet = .ok (waiting', new₀) ∧
      eager.pushRaw packet = .ok (eager', new₁) ∧
      Compared blocks shredVersion L rs (packets ++ [packet]) waiting' (out₀ ++ new₀) eager' (out₁ ++ new₁) := by
  obtain ⟨⟨waiting', new₀⟩, hok₀⟩ := hx.returns hB h.first.slots
  obtain ⟨⟨eager', new₁⟩, hok₁⟩ := hx.returns hB h.second.slots
  have hadd₀ := h.first.added hL h4 hB hrs hx (pushRaw_cases hok₀)
  have hadd₁ := h.second.added hL h4 hB hrs hx (pushRaw_cases hok₁)
  have hfirst := h.first.pushed hB hrs hx (pushRaw_cases hok₀)
  have hsecond := h.second.pushed hB hrs hx (pushRaw_cases hok₁)
  have hheld := h.held_pushed hrun₀ hrun₁ hx hok₀ hok₁ hadd₀ hadd₁
  refine ⟨waiting', new₀, eager', new₁, hok₀, hok₁, hfirst, hsecond, hheld, fun b hb => ?_⟩
  rcases List.mem_append.mp hb with hb | hb
  · exact (h.batches b hb).snoc hadd₁.highest
  · obtain ⟨hr, heq⟩ := hadd₀.batches b hb
    exact hfirst.cameOrLeft hsecond hheld hr heq

/-- Every batch of the run without recovery has come from the run with recovery, at the
same datagram or before, unless that run has left the slot by then. -/
theorem eager_keeps_up (blocks : ℕ → Block) (Codeword : List Bytes → Prop) (shredVersion : Option ℕ) (L : ℕ)
    (rs : ReedSolomon) (packets : List Bytes) (hL : 1 ≤ L) (h4 : 4 * L < 2 ^ 64)
    (hB : ∀ t, (blocks t).ConsistentSets Codeword t) (hrs : rs.Rebuilds Codeword)
    (hp : ∀ b ∈ packets, ∃ x, Drawn blocks L b x) (before after : List Bytes) (hsplit : packets = before ++ after) :
    ∃ waiting out₀ eager out₁, (new ⟨shredVersion, L, false⟩ rs).pushAll before = .ok (waiting, out₀) ∧
      (new ⟨shredVersion, L, true⟩ rs).pushAll before = .ok (eager, out₁) ∧
      ∀ b ∈ out₀, CameOrLeft shredVersion L rs before eager out₁ b := by
  have hbefore : ∀ b ∈ before, ∃ x, Drawn blocks L b x := by
    intro b hb
    exact hp b (by rw [hsplit]; exact List.mem_append_left _ hb)
  obtain ⟨waiting, out₀, eager, out₁, h₀, h₁, hC⟩ := Steps.runAll_both
    (P := Compared blocks shredVersion L rs) (Compared.start blocks shredVersion L rs)
    (fun is s os t os' packet hs ht hC ⟨x, hx⟩ => hC.pushed hL h4 hB hrs hs ht hx) before hbefore
  exact ⟨waiting, out₀, eager, out₁, h₀, h₁, hC.batches⟩

/-- Whatever the run without recovery has handed out at some datagram, the run with
recovery has handed out by then. -/
def KeepsUp (shredVersion : Option ℕ) (L : ℕ) (rs : ReedSolomon) (packets : List Bytes) : Prop :=
  ∀ before after waiting out₀ eager out₁, packets = before ++ after →
    (new ⟨shredVersion, L, false⟩ rs).pushAll before = .ok (waiting, out₀) →
    (new ⟨shredVersion, L, true⟩ rs).pushAll before = .ok (eager, out₁) → ∀ b ∈ out₀, b ∈ out₁

/-! ### Which slots a run holds -/

omit [Hasher] in
/- The slots after a push into `slot`, before the memory bound; `moves` says if the window
moves there. -/
def prunedSlots (L slot : ℕ) (moves : Bool) (held : Finset ℕ) : Finset ℕ :=
  (insert slot held).filter fun t => moves = true → slot ≤ t + L

omit [Hasher] in
/- What the memory bound leaves of them: the lowest. -/
def heldAfter (L slot : ℕ) (moves : Bool) (held : Finset ℕ) : Finset ℕ :=
  (prunedSlots L slot moves held).filter fun t => ((prunedSlots L slot moves held).filter (· ≤ t)).card ≤ 4 * L

/-- A run in which the window stands at `highest` and the slots `held` are there. -/
structure Standing (config : Config) (rs : ReedSolomon) (held : Finset ℕ) (highest : ℕ) (d : Deshredder) : Prop
    extends WindowInv config.slotLookback d where
  config_eq : d.config = config
  rs_eq : d.rs = rs
  keys : d.slots.keys = held
  highest_eq : d.highestSlot = highest

/- What a leader shred of `slot` does to it, of which `A` arrived before and `A'` with it. -/
structure Entered (blocks : ℕ → Block) (config : Config) (rs : ReedSolomon) (held : Finset ℕ) (highest slot : ℕ)
    (A A' : ℕ → Finset Position) (d d' : Deshredder) (out : List RawBatch) (moves : Bool) : Prop where
  moves_iff : moves = true ↔ out ≠ [] ∧ highest < slot
  standing : Standing config rs (heldAfter config.slotLookback slot moves held) (if moves then slot else highest) d'
  others : ∀ t ∈ heldAfter config.slotLookback slot moves held, t ≠ slot → d'.slotState t = d.slotState t
  tracks : slot ∈ heldAfter config.slotLookback slot moves held →
    Tracks (blocks slot) config.recover A' (d'.slotState slot)
  batches : ∀ b ∈ out, b = leaderBatch blocks slot b.shreds.1 b.shreds.2
  mem_out : ∀ s e, leaderBatch blocks slot s e ∈ out ↔
    (blocks slot).Delivered config.recover A' s e ∧ ¬ (blocks slot).Delivered config.recover A s e

variable {held : Finset ℕ} {highest : ℕ} {A : ℕ → Finset Position}

omit [Hasher] in
theorem Standing.heldAfter_keys (h : Standing config rs held highest d) (h4 : 4 * config.slotLookback < 2 ^ 64) {slot : ℕ}
    (hslot : slot + config.slotLookback < 2 ^ 64) (state : SlotState) (stats : Stats) (segments : List Segment) :
    (d.settle slot state stats segments).slots.keys =
      heldAfter config.slotLookback slot (d.advances slot segments) held := by
  have hkept : (d.kept slot state segments).keys = prunedSlots config.slotLookback slot (d.advances slot segments) held := by
    ext t
    rw [kept_keys h.toWindowInv hslot, prunedSlots, Finset.mem_filter, Finset.mem_insert, h.keys]
  ext t
  rw [settle_keys, hkept, h.slotLookback, wrappingMul_of_lt h4, heldAfter, Finset.mem_filter]

/-- A shred of a slot behind the window changes nothing. -/
theorem Standing.stale (h : Standing config rs held highest d) (hB : ∀ t, (blocks t).ConsistentSets Codeword t)
    (hx : Drawn blocks config.slotLookback packet x) (hs : x.slot + config.slotLookback < highest) :
    ∃ d', d.pushRaw packet = .ok (d', []) ∧ Standing config rs held highest d' ∧ d'.slots = d.slots := by
  obtain ⟨⟨d', out⟩, hok⟩ := hx.returns hB h.slots
  have hW := h.toWindowInv.pushed hx.inRange (pushRaw_cases hok)
  cases pushRaw_cases hok with
  | dropped stats _ => exact ⟨_, hok, ⟨hW, h.config_eq, h.rs_eq, h.keys, h.highest_eq⟩, rfl⟩
  | inserted y state stats stats' segments hy _ =>
    obtain rfl : y = x := Except.ok.inj (hy.parsed.symm.trans hx.parsed)
    have hle := (hy.highest_le h.toWindowInv hx.inRange).2
    rw [h.highest_eq] at hle
    omega

/-- Any other leader shred goes into its slot. -/
theorem Standing.pushed (h : Standing config rs held highest d) (h4 : 4 * config.slotLookback < 2 ^ 64)
    (hv : config.shredVersion = none) (hB : ∀ t, (blocks t).ConsistentSets Codeword t) (hrs : rs.Rebuilds Codeword)
    (hx : Drawn blocks config.slotLookback packet x) (hfresh : highest ≤ x.slot + config.slotLookback)
    (hA : Tracks (blocks x.slot) config.recover A (d.slotState x.slot)) : ∃ d' out moves,
      d.pushRaw packet = .ok (d', out) ∧ Entered blocks config rs held highest x.slot A (arrive A x) d d' out moves := by
  obtain ⟨⟨d', out⟩, hok⟩ := hx.returns hB h.slots
  have hW := h.toWindowInv.pushed hx.inRange (pushRaw_cases hok)
  have hadm : Admitted d packet x := by
    refine ⟨hx.parsed, by rw [wrongVersion, h.config_eq, hv]; rfl, ?_⟩
    rw [← Bool.not_eq_true, isStale_iff h.slotLookback hx.range, h.highest_eq]
    exact Nat.not_lt.mpr hfresh
  cases pushRaw_cases hok with
  | dropped stats hno => exact absurd hadm (hno x)
  | inserted y state stats stats' segments hy hins =>
    obtain rfl : y = x := Except.ok.inj (hy.parsed.symm.trans hx.parsed)
    have hI := h.slots.slotState y.slot
    obtain ⟨hI', mid, fresh, _, hone⟩ := SlotState.insert_spec hI (SlotState.fecSetIndex_of_insert hins) hins
    obtain ⟨hrsome, hrnone⟩ := recoverWith_rebuilds h.config_eq h.rs_eq hrs
    have hslot := hA.inserted hI (hB y.slot) hx.sent hrsome hrnone hone
    have hbatch := mem_leaderBatches fun seg hseg => (hslot.segments seg hseg).2
    have hkeys := h.heldAfter_keys h4 hx.range state stats' segments
    refine ⟨_, _, d.advances y.slot segments, hok, ?_, ⟨hW, h.config_eq, h.rs_eq, hkeys, ?_⟩, ?_, ?_, ?_, ?_⟩
    · rw [advances, decide_eq_true_eq, h.highest_eq, ne_eq, ne_eq, List.map_eq_nil_iff]
    · rw [settle_highestSlot, h.highest_eq]
    · intro t ht hne
      rw [← hkeys] at ht
      rw [settle_slotState ht, if_neg hne]
    · intro ht
      rw [← hkeys] at ht
      rw [settle_slotState ht, if_pos rfl]
      exact hslot.tracks
    · intro b hb
      obtain ⟨hbs, _, heq⟩ := (hbatch b).mp hb
      rwa [hbs] at heq
    · intro s e
      rw [hbatch, ← hslot.tracks.run_iff hI'.toAssembling, ← hA.run_iff hI.toAssembling]
      constructor
      · rintro ⟨_, hmem, _⟩
        exact ⟨(hslot.run_iff s e).mpr (.inr hmem), ((hone.out_iff s e).mp hmem).2⟩
      · rintro ⟨hnew, hold⟩
        exact ⟨rfl, ((hslot.run_iff s e).mp hnew).resolve_left hold, rfl⟩

/-! ### Blocks of several slots -/

def lineSlots : List ℕ := [5, 7, 20, 21, 22, 30]

omit [Hasher] in
theorem lineSlots_lt : ∀ t ∈ lineSlots, t < 2 ^ 64 := by decide

/- One set in each of these slots. -/
def lineBlocks (slot : ℕ) : Block := fun f =>
  if h : slot ∈ lineSlots ∧ f = 0 then some (lineSet slot (lineSlots_lt slot h.1)) else none

def lineCodewords : List (List Bytes) := lineSlots.map fun slot => lineCodeword slot fun _ => 0

def lineDecoder : ReedSolomon := ReedSolomon.tables lineCodewords

omit [Hasher] in
theorem lineDecoder_rebuilds : lineDecoder.Rebuilds (· ∈ lineCodewords) := by
  refine ReedSolomon.tables_rebuilds ?_ (List.pairwise_map.mpr ?_)
  · intro c hc
    obtain ⟨slot, _, rfl⟩ := List.mem_map.mp hc
    exact lineCodeword_length ..
  · have hbytes : lineSlots.Pairwise fun slot slot' => UInt8.ofNat slot ≠ UInt8.ofNat slot' := by decide
    exact hbytes.imp fun h => lineCodeword_apart h _

theorem lineBlocks_consistent (slot : ℕ) : (lineBlocks slot).Consistent (· ∈ lineCodewords) slot 0 := by
  intro f S hS
  simp only [lineBlocks] at hS
  split at hS
  · rename_i h
    obtain ⟨hslot, rfl⟩ := h
    rw [← Option.some.inj hS]
    refine (lineSet_consistent _).mono fun c hc => ?_
    rw [hc]
    exact List.mem_map_of_mem hslot
  · contradiction

theorem lineBlocks_sets (slot : ℕ) : (lineBlocks slot).ConsistentSets (· ∈ lineCodewords) slot :=
  (lineBlocks_consistent slot).sets

theorem lineBlocks_drawn {slot : ℕ} (h : slot ∈ lineSlots) (q : Position) :
    Drawn lineBlocks 1 ((lineSet slot (lineSlots_lt slot h)).shred q).bytes ((lineSet slot (lineSlots_lt slot h)).shred q) := by
  have hC := lineSet_consistent (lineSlots_lt slot h)
  have hrange : ∀ t ∈ lineSlots, t + 1 < 2 ^ 64 := by decide
  refine ⟨Shred.parse_bytes _, ⟨lineSet slot (lineSlots_lt slot h), ?_, by rw [hC.position q]⟩, ?_⟩
  · rw [hC.slot q, hC.fecSetIndex q, lineBlocks, dif_pos ⟨h, rfl⟩]
  · rw [hC.slot q]
    exact hrange slot h

theorem lineBlocks_zero {slot : ℕ} (h : slot ∈ lineSlots) : lineBlocks slot 0 = some (lineSet slot (lineSlots_lt slot h)) :=
  dif_pos ⟨h, rfl⟩

theorem line_available_iff {slot : ℕ} (h : slot ∈ lineSlots) {recover : Bool} {A : ℕ → Finset Position} (i : ℕ) :
    (lineBlocks slot).Available recover A i ↔ i < 32 ∧ Present recover (A 0) (Block.place i) := by
  rw [Block.Available]
  by_cases hi : i < 32
  · have hzero : i - i % 32 = 0 := by omega
    rw [hzero, lineBlocks_zero h]
    exact and_congr_left fun _ => iff_of_true rfl hi
  · have hnone : lineBlocks slot (i - i % 32) = none := dif_neg fun hset => by omega
    rw [hnone]
    exact iff_of_false (fun hav => Bool.false_ne_true hav.1) fun hav => hi hav.1

/-- Every shred of these blocks is a run of its own. -/
theorem line_delivered_iff {slot : ℕ} (h : slot ∈ lineSlots) {recover : Bool} {A : ℕ → Finset Position} {s e : ℕ} :
    (lineBlocks slot).Delivered recover A s e ↔ s = e ∧ (lineBlocks slot).Available recover A s ∧
      (s = 0 ∨ (lineBlocks slot).Available recover A (s - 1)) := by
  refine Block.delivered_iff_of_closes fun i hi => ?_
  rw [line_available_iff h] at hi
  have hshred : (lineBlocks slot).shredAt i = some ((lineSet slot (lineSlots_lt slot h)).data (Block.place i)) := by
    have hzero : i - i % 32 = 0 := by omega
    rw [Block.shredAt, hzero, lineBlocks_zero h]
    rfl
  rw [Block.Closes, hshred]
  exact lineSet_dataComplete (lineSlots_lt slot h) _

theorem line_delivered_first {slot : ℕ} (h : slot ∈ lineSlots) {recover : Bool} {A : ℕ → Finset Position} :
    ((lineBlocks slot).Delivered recover A 0 0 ↔ Present recover (A 0) 0) ∧
      ((lineBlocks slot).Delivered recover A 1 1 ↔ Present recover (A 0) 0 ∧ Present recover (A 0) 1) := by
  have hzero : Block.place 0 = 0 := rfl
  have hone : Block.place 1 = 1 := rfl
  rw [line_delivered_iff h, line_delivered_iff h, line_available_iff h, line_available_iff h, hzero, hone]
  constructor
  · simp
  · simp [and_comm]

def linePacket {slot : ℕ} (h : slot ∈ lineSlots) (q : Position) : Bytes := ((lineSet slot (lineSlots_lt slot h)).shred q).bytes

variable {recover : Bool} {slot : ℕ}

theorem line_arrive (hslot : slot ∈ lineSlots) (A : ℕ → Finset Position) (q : Position) :
    arrive A ((lineSet slot (lineSlots_lt slot hslot)).shred q) 0 = insert q (A 0) := by
  have hC := lineSet_consistent (lineSlots_lt slot hslot)
  rw [arrive, hC.fecSetIndex q, hC.position q, Function.update_self]

theorem Standing.line_pushed (h : Standing ⟨none, 1, recover⟩ lineDecoder held highest d) (hslot : slot ∈ lineSlots)
    (q : Position) (hfresh : highest ≤ slot + 1) (hA : Tracks (lineBlocks slot) recover A (d.slotState slot)) :
    ∃ d' out moves A', d.pushRaw (linePacket hslot q) = .ok (d', out) ∧ A' 0 = insert q (A 0) ∧
      Entered lineBlocks ⟨none, 1, recover⟩ lineDecoder held highest slot A A' d d' out moves := by
  have hx := lineBlocks_drawn hslot q
  have hs : ((lineSet slot (lineSlots_lt slot hslot)).shred q).slot = slot := (lineSet_consistent _).slot q
  obtain ⟨d', out, moves, hok, hE⟩ := h.pushed (show 4 * 1 < 2 ^ 64 by decide) rfl lineBlocks_sets
    lineDecoder_rebuilds hx (A := A) (by rw [hs]; exact hfresh) (by rw [hs]; exact hA)
  rw [hs] at hE
  exact ⟨d', out, moves, _, hok, line_arrive hslot A q, hE⟩

/-- A shred that completes nothing only enters its slot. -/
theorem Entered.quiet {A' : ℕ → Finset Position} {moves : Bool}
    (h : Entered blocks config rs held highest slot A A' d d' out moves)
    (hq : ∀ s e, (blocks slot).Delivered config.recover A' s e → (blocks slot).Delivered config.recover A s e) :
    out = [] ∧ moves = false := by
  have hnil : out = [] := by
    rw [List.eq_nil_iff_forall_not_mem]
    intro b hb
    have heq := h.batches b hb
    rw [heq] at hb
    obtain ⟨hnew, hold⟩ := (h.mem_out _ _).mp hb
    exact hold (hq _ _ hnew)
  refine ⟨hnil, ?_⟩
  rw [← Bool.not_eq_true, h.moves_iff]
  exact fun hmoves => hmoves.1 hnil

/-- The second shred of a slot that is not held completes nothing. -/
theorem Standing.second (h : Standing ⟨none, 1, recover⟩ lineDecoder held highest d) (hslot : slot ∈ lineSlots)
    (hnew : slot ∉ held) (hfresh : highest ≤ slot + 1) : ∃ d' A', d.pushRaw (linePacket hslot (.data 1)) = .ok (d', []) ∧
      A' 0 = {.data 1} ∧ Entered lineBlocks ⟨none, 1, recover⟩ lineDecoder held highest slot (fun _ => ∅) A' d d' [] false := by
  have hempty : Tracks (lineBlocks slot) recover (fun _ => ∅) (d.slotState slot) := by
    rw [slotState_of_not_held (h.keys ▸ hnew)]
    exact Tracks.empty _ _
  obtain ⟨d', out, moves, A', hok, hA', hE⟩ := h.line_pushed hslot (.data 1) hfresh hempty
  rw [insert_empty_eq] at hA'
  obtain ⟨rfl, rfl⟩ := hE.quiet fun s e hdel => by
    rw [line_delivered_iff hslot, line_available_iff hslot, line_available_iff hslot, hA'] at hdel
    simp only [Present, Finset.mem_singleton, Position.data.injEq, Finset.card_singleton, Block.place, Fin.ext_iff] at hdel
    obtain ⟨_, ⟨hlt, hone⟩, hstart⟩ := hdel
    have hval : ((1 : Fin 32) : ℕ) = 1 := rfl
    omega
  exact ⟨d', A', hok, hA', hE⟩

theorem Entered.standing_next {A' : ℕ → Finset Position} {moves : Bool}
    (h : Entered blocks config rs held highest slot A A' d d' out moves) {next : Finset ℕ}
    (hnext : heldAfter config.slotLookback slot moves held = next) :
    Standing config rs next (if moves then slot else highest) d' := by
  rw [← hnext]
  exact h.standing

omit [Hasher] in
/- The slots held after the second shreds of these slots: each slot is new and not behind
the window, and none of them throws slot `t` out. -/
def heldAfterSeconds (highest t : ℕ) : List ℕ → Finset ℕ → Option (Finset ℕ)
  | [], held => some held
  | slot :: slots, held =>
    if slot ∉ held ∧ highest ≤ slot + 1 ∧ t ∈ heldAfter 1 slot false held ∧ t ≠ slot then
      heldAfterSeconds highest t slots (heldAfter 1 slot false held)
    else none

/-- Second shreds of slots that are not held, one after the other. -/
theorem Standing.seconds (h : Standing ⟨none, 1, recover⟩ lineDecoder held highest d) (slots : List ℕ) (t : ℕ)
    (hslots : ∀ slot ∈ slots, slot ∈ lineSlots) {next : Finset ℕ}
    (hnext : heldAfterSeconds highest t slots held = some next) :
    ∃ d', d.pushAll (slots.pmap (fun _ hslot => linePacket hslot (.data 1)) hslots) = .ok (d', []) ∧
      Standing ⟨none, 1, recover⟩ lineDecoder next highest d' ∧ d'.slotState t = d.slotState t := by
  induction slots generalizing d held with
  | nil =>
    obtain rfl := Option.some.inj hnext
    exact ⟨d, rfl, h, rfl⟩
  | cons slot slots ih =>
    rw [heldAfterSeconds] at hnext
    split at hnext
    · rename_i hroom
      obtain ⟨hnew, hfresh, hkept, hother⟩ := hroom
      obtain ⟨d₁, _, hok, _, hE⟩ := h.second (hslots slot (List.mem_cons_self ..)) hnew hfresh
      obtain ⟨d', hrun, hS, hstate⟩ := ih hE.standing (fun s hs => hslots s (List.mem_cons_of_mem _ hs)) hnext
      exact ⟨d', Steps.runAll_cons_ok.mpr ⟨d₁, [], [], hok, hrun, rfl⟩, hS, hstate.trans (hE.others t hkept hother)⟩
    · contradiction

/-! ### A slot that only the waiting run still takes -/

/- All code shreds of slot 7. -/
def codePackets : List Bytes := (List.finRange 32).map fun p => linePacket (show 7 ∈ lineSlots by decide) (.code p)

/- A whole run of slot 5. -/
def latePacket : Bytes := linePacket (show 5 ∈ lineSlots by decide) (.data 0)

theorem linePacket_drawn (hslot : slot ∈ lineSlots) (q : Position) : ∃ x, Drawn lineBlocks 1 (linePacket hslot q) x :=
  ⟨_, lineBlocks_drawn hslot q⟩

theorem codePackets_drawn : ∀ b ∈ codePackets, ∃ x, Drawn lineBlocks 1 b x := by
  intro b hb
  obtain ⟨p, _, rfl⟩ := List.mem_map.mp hb
  exact linePacket_drawn _ _

theorem linePacket_slot (hslot : slot ∈ lineSlots) (q : Position) {x : Shred}
    (hx : Shred.parse (linePacket hslot q) = .ok x) : x.slot = slot := by
  rw [← Except.ok.inj ((Shred.parse_bytes _).symm.trans hx)]
  exact (lineSet_consistent _).slot q

theorem codePackets_fromLeader : ∀ b ∈ codePackets, ∃ x, FromLeader lineBlocks 7 1 b x := by
  intro b hb
  obtain ⟨p, _, rfl⟩ := List.mem_map.mp hb
  have hx := lineBlocks_drawn (show 7 ∈ lineSlots by decide) (.code p)
  have hslot := linePacket_slot (show 7 ∈ lineSlots by decide) (.code p) hx.parsed
  exact ⟨_, hx.parsed, hx.sent, by omega⟩

theorem codePackets_arrivals (q : Position) : q ∈ arrivals codePackets 7 0 ↔ ∃ p, q = .code p := by
  have hone : ∀ p : Fin 32, arrivedAt 7 0 (linePacket (show 7 ∈ lineSlots by decide) (.code p)) = some (.code p) := by
    intro p
    have hC := lineSet_consistent (lineSlots_lt 7 (by decide))
    rw [arrivedAt, linePacket, Shred.parse_bytes]
    dsimp only
    rw [if_pos ⟨hC.slot (.code p), hC.fecSetIndex (.code p)⟩, hC.position (.code p)]
  simp only [arrivals, codePackets, List.mem_toFinset, List.filterMap_map, List.mem_filterMap, List.mem_finRange,
    true_and, Function.comp_apply, hone, Option.some.injEq, eq_comm]

theorem codePackets_runs (recover : Bool) : ∃ d out, (new ⟨none, 1, recover⟩ lineDecoder).pushAll codePackets =
    .ok (d, out) ∧ Delivering lineBlocks ⟨none, 1, recover⟩ lineDecoder 7 codePackets d out :=
  pushAll_delivering codePackets (le_refl 1) (show 4 * 1 < 2 ^ 64 by decide) (show 7 + 2 * 1 < 2 ^ 64 by decide)
    lineBlocks_consistent (.inl rfl) lineDecoder_rebuilds codePackets_fromLeader

omit [Hasher] in
theorem codes_ready {A : Finset Position} (hA : ∀ q, q ∈ A ↔ ∃ p, q = .code p) {p : Fin 32} :
    Present recover A p ↔ recover = true := by
  have hcard : 32 ≤ A.card := all_codes_card fun p => (hA _).mpr ⟨p, rfl⟩
  have hdata : Position.data p ∉ A := fun hmem => by
    obtain ⟨r, hr⟩ := (hA _).mp hmem
    contradiction
  simp [Present, hcard, hdata]

/- The slot that the code shreds created is held. -/
theorem codePackets_keys (h : Delivering lineBlocks ⟨none, 1, recover⟩ lineDecoder 7 codePackets d out)
    (hrun : (new ⟨none, 1, recover⟩ lineDecoder).pushAll codePackets = .ok (d, out)) : d.slots.keys = {7} := by
  ext t
  rw [Finset.mem_singleton]
  constructor
  · intro ht
    obtain ⟨packet, hpacket, x, hx, rfl⟩ := keys_of_pushAll hrun t ht
    obtain ⟨p, _, rfl⟩ := List.mem_map.mp hpacket
    exact linePacket_slot (show 7 ∈ lineSlots by decide) (.code p) hx
  · rintro rfl
    by_contra hgone
    have htracks := h.tracks 7
    rw [slotState_of_not_held hgone] at htracks
    have hset := htracks.sets 0 _ (lineBlocks_zero (show 7 ∈ lineSlots by decide)) fun hcons => by
      have hzero := hcons 0 le_rfl (by omega)
      simp [SlotState.empty] at hzero
    by_cases hready : Ready recover (arrivals codePackets 7 0)
    · obtain ⟨y, hy, _⟩ := hset.full hready 0
      contradiction
    · obtain ⟨root, hroot⟩ := (lineSet_consistent (lineSlots_lt 7 (by decide))).sealed
      have hheld := (hset.waiting hready root hroot).held (.code 0)
      rw [if_pos ((codePackets_arrivals _).mpr ⟨0, rfl⟩)] at hheld
      contradiction

/-- After the code shreds of slot 7 only it is held, and with recovery the window is there. -/
theorem codePackets_standing (recover : Bool) : ∃ d out A,
    (new ⟨none, 1, recover⟩ lineDecoder).pushAll codePackets = .ok (d, out) ∧
      Standing ⟨none, 1, recover⟩ lineDecoder {7} (if recover then 7 else 0) d ∧ (∀ q, q ∈ A 0 ↔ ∃ p, q = .code p) ∧
      Tracks (lineBlocks 7) recover A (d.slotState 7) ∧ ∀ b ∈ out, b.slot = 7 := by
  obtain ⟨d, out, hrun, hD⟩ := codePackets_runs recover
  have hkeys := codePackets_keys hD hrun
  have hslots : ∀ b ∈ out, b.slot = 7 := by
    intro b hb
    have hr := ((hD.mem_out b).mp hb).1
    have hkey := mem_keys_of_received (hr.present _ le_rfl hr.le)
    rwa [hkeys, Finset.mem_singleton] at hkey
  have hmem : ∀ s e, leaderBatch lineBlocks 7 s e ∈ out ↔ (lineBlocks 7).Delivered recover (arrivals codePackets 7) s e := by
    intro s e
    rw [hD.mem_out, ← (hD.tracks 7).run_iff (hD.slots.slotState 7).toAssembling]
    exact and_iff_left rfl
  have hhighest : d.highestSlot = if recover then 7 else 0 := by
    cases recover with
    | true =>
      have hzero : (lineBlocks 7).Delivered true (arrivals codePackets 7) 0 0 := by
        rw [line_delivered_iff (show 7 ∈ lineSlots by decide), line_available_iff (show 7 ∈ lineSlots by decide),
          codes_ready codePackets_arrivals]
        exact ⟨rfl, ⟨by omega, rfl⟩, .inl rfl⟩
      have hE := pushAll_emission (by decide) (by decide) (fun b hb => (codePackets_drawn b hb).elim fun _ hx => hx.inRange) hrun
      have hle := (hE.seen _ ((hmem 0 0).mpr hzero)).1
      rcases pushAll_highest hrun with hnone | ⟨b, hb, hslot⟩
      · rw [hnone] at hle
        exact absurd hle (show ¬ 7 ≤ 0 by decide)
      · rw [← hslot, hslots b hb]
        rfl
    | false =>
      rcases pushAll_highest hrun with hnone | ⟨b, hb, _⟩
      · exact hnone
      · obtain ⟨hr, _⟩ := (hD.mem_out b).mp hb
        have hav := (((hD.tracks b.slot).received _).mp (hr.present _ le_rfl hr.le))
        rw [hslots b hb, line_available_iff (show 7 ∈ lineSlots by decide), codes_ready codePackets_arrivals] at hav
        exact absurd hav.2 Bool.false_ne_true
  exact ⟨d, out, _, hrun, ⟨hD.toWindowInv, hD.config_eq, hD.rs_eq, hkeys, hhighest⟩, codePackets_arrivals, hD.tracks 7, hslots⟩

/-- The run of slot 5 is too late for the eager window, and alone in its slot for the
other. -/
theorem not_keepsUp : ¬ KeepsUp none 1 lineDecoder (codePackets ++ [latePacket]) := by
  intro hkeeps
  have hlate : 5 ∈ lineSlots := by decide
  obtain ⟨eager, out₁, _, hrun₁, hS₁, _, _, hseven⟩ := codePackets_standing true
  obtain ⟨waiting, out₀, _, hrun₀, hS₀, _, _, _⟩ := codePackets_standing false
  obtain ⟨eager', hok₁, _⟩ := hS₁.stale lineBlocks_sets (lineBlocks_drawn hlate (.data 0)) (by
    rw [(lineSet_consistent (lineSlots_lt 5 hlate)).slot]
    decide)
  have hempty : Tracks (lineBlocks 5) false (fun _ => ∅) (waiting.slotState 5) := by
    rw [slotState_of_not_held (by rw [hS₀.keys]; decide)]
    exact Tracks.empty _ _
  obtain ⟨waiting', new₀, moves, A', hok₀, hA', hE⟩ := hS₀.line_pushed hlate (.data 0) (by decide) hempty
  have hnew : leaderBatch lineBlocks 5 0 0 ∈ new₀ := by
    rw [hE.mem_out, (line_delivered_first hlate).1, (line_delivered_first hlate).1, hA']
    simp [Present]
  have hmem := hkeeps (codePackets ++ [latePacket]) [] waiting' (out₀ ++ new₀) eager' (out₁ ++ []) (by simp)
    (Steps.runAll_snoc_ok.mpr ⟨waiting, out₀, new₀, hrun₀, hok₀, rfl⟩)
    (Steps.runAll_snoc_ok.mpr ⟨eager, out₁, [], hrun₁, hok₁, rfl⟩) _ (List.mem_append_right _ hnew)
  rw [List.append_nil] at hmem
  exact absurd (hseven _ hmem) (show 5 ≠ 7 by decide)

omit [Hasher] in
/-- 32 code shreds of slot 7, then a data shred of slot 5: only the run without recovery
hands out what it completes. -/
theorem eager_falls_behind :
    let packets := @codePackets sha256Hasher ++ [@latePacket sha256Hasher]
    (∀ t, @Block.ConsistentSets sha256Hasher (@lineBlocks sha256Hasher t) (· ∈ lineCodewords) t) ∧
      lineDecoder.Rebuilds (· ∈ lineCodewords) ∧ (∀ b ∈ packets, ∃ x, Drawn (@lineBlocks sha256Hasher) 1 b x) ∧
      ¬ @KeepsUp sha256Hasher none 1 lineDecoder packets := by
  refine ⟨@lineBlocks_sets sha256Hasher, lineDecoder_rebuilds, fun b hb => ?_, @not_keepsUp sha256Hasher⟩
  rcases List.mem_append.mp hb with hb | hb
  · exact @codePackets_drawn sha256Hasher b hb
  · rw [List.mem_singleton.mp hb]
    exact @linePacket_drawn sha256Hasher 5 _ _

/-! ### A slot that only the eager run throws out -/

/- Shreds of slot 5 and of three slots ahead of the window, of which the waiting run, which
still holds slot 5, has no room for the last; then slot 7 is complete in both runs, and
slot 30 comes, its second shred first. -/
def thrownPackets : List Bytes := codePackets ++ [
  linePacket (show 5 ∈ lineSlots by decide) (.data 1),
  linePacket (show 20 ∈ lineSlots by decide) (.data 1),
  linePacket (show 21 ∈ lineSlots by decide) (.data 1),
  linePacket (show 22 ∈ lineSlots by decide) (.data 1),
  linePacket (show 7 ∈ lineSlots by decide) (.data 0),
  linePacket (show 30 ∈ lineSlots by decide) (.data 1),
  linePacket (show 30 ∈ lineSlots by decide) (.data 0)]

theorem waiting_hands_out : ∃ d out, (new ⟨none, 1, false⟩ lineDecoder).pushAll thrownPackets = .ok (d, out) ∧
    leaderBatch lineBlocks 30 1 1 ∈ out := by
  have h7 : 7 ∈ lineSlots := by decide
  have h30 : 30 ∈ lineSlots := by decide
  obtain ⟨d₀, out₀, A, hrun, hS₀, hA, hseven, _⟩ := codePackets_standing false
  obtain ⟨d₁, hseconds, hS₁, hs₁⟩ := hS₀.seconds [5, 20, 21, 22] 7 (by decide)
    (show heldAfterSeconds 0 7 [5, 20, 21, 22] {7} = some {5, 7, 20, 21} by decide)
  rw [← hs₁] at hseven
  obtain ⟨d₂, out₂, moves, A₂, hok₂, hA₂, hE₂⟩ := hS₁.line_pushed h7 (.data 0) (by decide) hseven
  have hnew : leaderBatch lineBlocks 7 0 0 ∈ out₂ := by
    rw [hE₂.mem_out, (line_delivered_first h7).1, (line_delivered_first h7).1, hA₂, codes_ready hA]
    simp [Present]
  obtain rfl : moves = true := hE₂.moves_iff.mpr ⟨List.ne_nil_of_mem hnew, by decide⟩
  have hS₂ := hE₂.standing_next (show heldAfter 1 7 true {5, 7, 20, 21} = {7, 20, 21} by decide)
  obtain ⟨d₃, A₃, hok₃, hA₃, hE₃⟩ := hS₂.second h30 (by decide) (by decide)
  have htracks := hE₃.tracks (show 30 ∈ heldAfter 1 30 false {7, 20, 21} by decide)
  obtain ⟨d₄, out₄, _, A₄, hok₄, hA₄, hE₄⟩ := hE₃.standing.line_pushed h30 (.data 0) (by decide) htracks
  have hlast : leaderBatch lineBlocks 30 1 1 ∈ out₄ := by
    rw [hE₄.mem_out, (line_delivered_first h30).2, (line_delivered_first h30).2, hA₄, hA₃]
    simp [Present]
  have hrest : d₁.pushAll [linePacket h7 (.data 0), linePacket h30 (.data 1), linePacket h30 (.data 0)] =
      .ok (d₄, out₂ ++ out₄) := by
    refine Steps.runAll_cons_ok.mpr ⟨d₂, out₂, out₄, hok₂, ?_, rfl⟩
    exact Steps.runAll_cons_ok.mpr ⟨d₃, [], out₄, hok₃, Steps.runAll_singleton_ok.mpr hok₄, rfl⟩
  have hall := Steps.runAll_append_ok.mpr ⟨d₁, [], _, hseconds, hrest, rfl⟩
  exact ⟨d₄, _, Steps.runAll_append_ok.mpr ⟨d₀, out₀, _, hrun, hall, rfl⟩, by simp [hlast]⟩

theorem eager_throws_out : ∃ d out, (new ⟨none, 1, true⟩ lineDecoder).pushAll thrownPackets = .ok (d, out) ∧
    leaderBatch lineBlocks 30 1 1 ∉ out ∧ d.highestSlot ≤ 30 := by
  have h5 : 5 ∈ lineSlots := by decide
  have h7 : 7 ∈ lineSlots := by decide
  have h30 : 30 ∈ lineSlots := by decide
  obtain ⟨d₀, out₀, A, hrun, hS₀, hA, hseven, hslots⟩ := codePackets_standing true
  obtain ⟨d₁, hok₁, hS₁, hs₁⟩ := hS₀.stale lineBlocks_sets (lineBlocks_drawn h5 (.data 1)) (by
    rw [(lineSet_consistent (lineSlots_lt 5 h5)).slot]
    decide)
  obtain ⟨d₂, hseconds, hS₂, hs₂⟩ := hS₁.seconds [20, 21, 22] 7 (by decide)
    (show heldAfterSeconds 7 7 [20, 21, 22] {7} = some {7, 20, 21, 22} by decide)
  have hsame : d₂.slotState 7 = d₀.slotState 7 := by rw [hs₂, slotState, slotState, hs₁]
  rw [← hsame] at hseven
  obtain ⟨d₃, out₃, moves, A₃, hok₃, hA₃, hE₃⟩ := hS₂.line_pushed h7 (.data 0) (by decide) hseven
  -- slot 7 was recovered before
  obtain ⟨rfl, rfl⟩ := hE₃.quiet fun s e hdel => by
    rw [line_delivered_iff h7, line_available_iff h7, line_available_iff h7] at hdel ⊢
    simp only [codes_ready hA, and_true]
    exact ⟨hdel.1, hdel.2.1.1, hdel.2.2.imp id And.left⟩
  have hS₃ := hE₃.standing_next (show heldAfter 1 7 false {7, 20, 21, 22} = {7, 20, 21, 22} by decide)
  -- there is no room for slot 30
  obtain ⟨d₄, _, hok₄, _, hE₄⟩ := hS₃.second h30 (by decide) (by decide)
  have hS₄ := hE₄.standing_next (show heldAfter 1 30 false {7, 20, 21, 22} = {7, 20, 21, 22} by decide)
  have hempty : Tracks (lineBlocks 30) true (fun _ => ∅) (d₄.slotState 30) := by
    rw [slotState_of_not_held (by rw [hS₄.keys]; decide)]
    exact Tracks.empty _ _
  obtain ⟨d₅, out₅, moves, A₅, hok₅, hA₅, hE₅⟩ := hS₄.line_pushed h30 (.data 0) (by decide) hempty
  have hlast : leaderBatch lineBlocks 30 1 1 ∉ out₅ := by
    rw [hE₅.mem_out, (line_delivered_first h30).2, hA₅]
    simp [Present]
  have hrest : d₂.pushAll [linePacket h7 (.data 0), linePacket h30 (.data 1), linePacket h30 (.data 0)] =
      .ok (d₅, out₅) := by
    refine Steps.runAll_cons_ok.mpr ⟨d₃, [], out₅, hok₃, ?_, rfl⟩
    exact Steps.runAll_cons_ok.mpr ⟨d₄, [], out₅, hok₄, Steps.runAll_singleton_ok.mpr hok₅, rfl⟩
  have hall := Steps.runAll_append_ok.mpr ⟨d₂, [], _, hseconds, hrest, rfl⟩
  refine ⟨d₅, out₀ ++ out₅, Steps.runAll_append_ok.mpr ⟨d₀, out₀, _, hrun, ?_, rfl⟩, ?_, ?_⟩
  · exact Steps.runAll_cons_ok.mpr ⟨d₁, [], _, hok₁, hall, rfl⟩
  · intro hmem
    rcases List.mem_append.mp hmem with hmem | hmem
    · exact absurd (hslots _ hmem) (show 30 ≠ 7 by decide)
    · exact hlast hmem
  · rw [hE₅.standing.highest_eq]
    cases moves with
    | true => exact le_rfl
    | false => exact (show 7 ≤ 30 by decide)

omit [Hasher] in
/-- The waiting run hands out the second shred of slot 30, the eager run does not, and its
window is not past the slot: it has thrown the slot out. -/
theorem eager_keeps_up_thrown_out :
    let : Hasher := sha256Hasher
    ∃ waiting out₀ eager out₁, (new ⟨none, 1, false⟩ lineDecoder).pushAll thrownPackets = .ok (waiting, out₀) ∧
      (new ⟨none, 1, true⟩ lineDecoder).pushAll thrownPackets = .ok (eager, out₁) ∧
      (∀ b ∈ out₀, CameOrLeft none 1 lineDecoder thrownPackets eager out₁ b) ∧
      leaderBatch lineBlocks 30 1 1 ∈ out₀ ∧ leaderBatch lineBlocks 30 1 1 ∉ out₁ ∧ eager.highestSlot ≤ 30 ∧
      ∃ i ≤ 1, ThrewOut none 1 lineDecoder thrownPackets 30 i := by
  let : Hasher := sha256Hasher
  intro _
  have hdrawn : ∀ b ∈ thrownPackets, ∃ x, Drawn lineBlocks 1 b x := by
    intro b hb
    rcases List.mem_append.mp hb with hb | hb
    · exact codePackets_drawn b hb
    · simp only [List.mem_cons, List.not_mem_nil, or_false] at hb
      rcases hb with rfl | rfl | rfl | rfl | rfl | rfl | rfl <;> exact linePacket_drawn _ _
  obtain ⟨waiting, out₀, eager, out₁, hrun₀, hrun₁, hall⟩ := eager_keeps_up lineBlocks (· ∈ lineCodewords) none 1
    lineDecoder thrownPackets (le_refl 1) (by decide) lineBlocks_sets lineDecoder_rebuilds hdrawn thrownPackets []
    (List.append_nil thrownPackets).symm
  obtain ⟨_, _, hwaiting, hcame⟩ := waiting_hands_out
  obtain ⟨_, _, heager, hlost, hhigh⟩ := eager_throws_out
  obtain ⟨rfl, rfl⟩ := Prod.mk.inj (Except.ok.inj (hwaiting.symm.trans hrun₀))
  obtain ⟨rfl, rfl⟩ := Prod.mk.inj (Except.ok.inj (heager.symm.trans hrun₁))
  refine ⟨_, _, _, _, hrun₀, hrun₁, hall, hcame, hlost, hhigh, ?_⟩
  cases hall _ hcame with
  | came h => exact absurd h hlost
  | passed h =>
    have hpast : 30 + 1 < _ := h
    omega
  | thrownOut i _ h2 h => exact ⟨i, h2, h⟩

end Deshredder
end Deshred
