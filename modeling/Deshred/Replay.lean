import Deshred.Fixture
import Deshred.Pipeline

/-!
# Replaying a capture (fixture.rs)

`replay` pushes the records of a capture one by one and stops at the first that cannot
be read. On a capture cut anywhere after its magic the sink gets a prefix of what it
gets on the whole one.
-/

namespace Deshred
variable {E : Type}

namespace Deshredder
variable [Hasher] {d d' d₂ d₃ : Deshredder} {wincode : Wincode E} {packet : Bytes} {packets : List Bytes}

/-- `push` for one datagram after the other. -/
def pushEach (wincode : Wincode E) (d : Deshredder) (packets : List Bytes) :
    Except Panic (Deshredder × List (EntryBatch E)) :=
  Steps.runAll (fun d packet => d.push wincode packet) d packets

/-- Decoding follows assembly: `push` hands out what `push_raw` does, decoded. -/
theorem push_follows (wincode : Wincode E) (h : SameButStats d d₂) {raws : List RawBatch} (hok : d.pushRaw packet = .ok (d', raws)) :
    ∃ d₂', d₂.push wincode packet = .ok (d₂', raws.flatMap (batchesOf wincode)) ∧ SameButStats d' d₂' := by
  obtain ⟨t, ht, hsame⟩ := (h.pushRaw packet).ok hok
  refine ⟨{ t with stats := (onRaws wincode t.stats raws).1 }, ?_, hsame.trans ⟨rfl, rfl, rfl, rfl⟩⟩
  rw [push, ht, ← onRaws_out wincode t.stats raws]

theorem push_panics (h : SameButStats d d₂) {p : Panic} (hp : d.pushRaw packet = .error p) :
    d₂.push wincode packet = .error p := by
  rw [push, (h.pushRaw packet).error hp]

theorem push_error_iff {p : Panic} : d.push wincode packet = .error p ↔ d.pushRaw packet = .error p := by
  unfold push
  cases d.pushRaw packet with
  | error q => simp
  | ok r => simp

theorem pushEach_follows (wincode : Wincode E) (h : SameButStats d d₂) {raws : List RawBatch}
    (hok : d.pushAll packets = .ok (d', raws)) :
    ∃ d₂', pushEach wincode d₂ packets = .ok (d₂', raws.flatMap (batchesOf wincode)) ∧ SameButStats d' d₂' := by
  induction packets generalizing d d₂ raws with
  | nil =>
    simp only [pushAll, Steps.runAll_nil, Except.ok.injEq, Prod.mk.injEq] at hok
    obtain ⟨rfl, rfl⟩ := hok
    exact ⟨d₂, rfl, h⟩
  | cons packet packets ih =>
    obtain ⟨d₁, raws₁, raws₂, hstep, hrest, rfl⟩ := Steps.runAll_cons_ok.mp hok
    obtain ⟨t, ht, hsame⟩ := push_follows wincode h hstep
    obtain ⟨d₂', hrun, hsame'⟩ := ih hsame hrest
    refine ⟨d₂', Steps.runAll_cons_ok.mpr ⟨t, _, _, ht, hrun, ?_⟩, hsame'⟩
    rw [List.flatMap_append]

theorem pushEach_raws {out : List (EntryBatch E)} (h : pushEach wincode d packets = .ok (d', out)) :
    ∃ d₀ raws, d.pushAll packets = .ok (d₀, raws) ∧ SameButStats d₀ d' ∧ out = raws.flatMap (batchesOf wincode) := by
  refine Steps.runAll_induct (P := fun packets d' out => ∃ d₀ raws, d.pushAll packets = .ok (d₀, raws) ∧
    SameButStats d₀ d' ∧ out = raws.flatMap (batchesOf wincode)) ⟨_, [], rfl, ⟨rfl, rfl, rfl, rfl⟩, rfl⟩ ?_ h
  intro packets d₁ out packet d₁' out' _ hP hstep
  obtain ⟨d₀, raws, hraws, hsame, rfl⟩ := hP
  obtain ⟨d₂, raws', hraw, hsame', rfl, _⟩ := push_ok hstep
  obtain ⟨d₀', hraws', hsame₀⟩ := hsame.pushAll_snoc hraws hraw
  refine ⟨d₀', raws ++ raws', hraws', hsame₀.trans hsame', ?_⟩
  rw [List.flatMap_append]

end Deshredder

namespace Fixture
variable [Hasher]

/- The loop of `replay` over what the reader yields, `count` records into it. Returns the
Deshredder, what the sink got and the result of the call. -/
def replayFrom (wincode : Wincode E) (d : Deshredder) (count : ℕ) :
    List (Except Error Record) → Except Panic (Deshredder × List (EntryBatch E) × Except Error ℕ)
  | [] => .ok (d, [], .ok count)
  | .error e :: _ => .ok (d, [], .error e)
  | .ok record :: rest =>
    match d.push wincode record.packet with
    | .error p => .error p
    | .ok (d, out) =>
      match replayFrom wincode d (count + 1) rest with
      | .error p => .error p
      | .ok (d, outs, result) => .ok (d, out ++ outs, result)

/-- Returns the number of packets replayed. -/
def replay (wincode : Wincode E) (reader : Reader) (d : Deshredder) :
    Except Panic (Deshredder × List (EntryBatch E) × Except Error ℕ) :=
  replayFrom wincode d 0 reader.items

theorem replayFrom_ok {wincode : Wincode E} {d d' : Deshredder} {records : List Record} {out : List (EntryBatch E)}
    (h : Deshredder.pushEach wincode d (records.map Record.packet) = .ok (d', out)) (count : ℕ)
    (tail : List (Except Error Record)) {result : Except Error ℕ}
    (htail : replayFrom wincode d' (count + records.length) tail = .ok (d', [], result)) :
    replayFrom wincode d count (records.map .ok ++ tail) = .ok (d', out, result) := by
  induction records generalizing d out count with
  | nil =>
    simp only [List.map_nil, Deshredder.pushEach, Steps.runAll_nil, Except.ok.injEq, Prod.mk.injEq] at h
    obtain ⟨rfl, rfl⟩ := h
    exact htail
  | cons record records ih =>
    obtain ⟨d₁, out₁, outs, hstep, hrest, rfl⟩ := Steps.runAll_cons_ok.mp h
    have hcount : count + (record :: records).length = count + 1 + records.length := by
      rw [List.length_cons]
      omega
    rw [hcount] at htail
    have hreplay := ih hrest (count + 1) htail
    simp only [List.map_cons, List.cons_append, replayFrom, hstep, hreplay]

theorem replayFrom_error {wincode : Wincode E} {d : Deshredder} {records : List Record} {p : Panic}
    (h : Deshredder.pushEach wincode d (records.map Record.packet) = .error p) (count : ℕ)
    (tail : List (Except Error Record)) : replayFrom wincode d count (records.map .ok ++ tail) = .error p := by
  induction records generalizing d count with
  | nil => contradiction
  | cons record records ih =>
    simp only [List.map_cons, Deshredder.pushEach, Steps.runAll] at h
    simp only [List.map_cons, List.cons_append, replayFrom]
    cases hstep : d.push wincode record.packet with
    | error q =>
      rw [hstep] at h
      dsimp only at h ⊢
      exact congrArg _ (Except.error.inj h)
    | ok r =>
      obtain ⟨d₁, out₁⟩ := r
      have hrest : Deshredder.pushEach wincode d₁ (records.map Record.packet) = .error p := by
        rw [hstep] at h
        dsimp only at h
        split at h
        · rename_i hq
          rw [Deshredder.pushEach, hq]
          exact h
        · contradiction
      simp only [ih hrest (count + 1)]

/-- Replaying is pushing the records that were read; only a torn packet makes it fail. -/
theorem replay_items (wincode : Wincode E) (d : Deshredder) {reader : Reader} {records : List Record} {clean : Prop}
    [Decidable clean] (h : reader.items = records.map .ok ++ if clean then [] else [.error .unexpectedEof]) :
    replay wincode reader d = (Deshredder.pushEach wincode d (records.map Record.packet)).map fun r =>
      (r.1, r.2, if clean then .ok records.length else .error .unexpectedEof) := by
  rw [replay, h]
  cases hrun : Deshredder.pushEach wincode d (records.map Record.packet) with
  | error p => exact replayFrom_error hrun 0 _
  | ok r =>
    obtain ⟨d', out⟩ := r
    refine replayFrom_ok hrun 0 _ ?_
    rw [Nat.zero_add]
    split <;> rfl

section
omit [Hasher]

/-- The first `n` records end within `k` bytes when they begin at `start`, the next one
does not. -/
structure WholeWithin (start : ℕ) (records : List Record) (k n : ℕ) : Prop where
  le : n ≤ records.length
  fits : start + ((records.take n).flatMap Record.encode).length ≤ k
  next : n < records.length → k < start + ((records.take (n + 1)).flatMap Record.encode).length

/- Of the record behind them less than its header is left. -/
def Clean (start : ℕ) (records : List Record) (k n : ℕ) : Prop :=
  n = records.length ∨ k < start + ((records.take n).flatMap Record.encode).length + 10

instance (start : ℕ) (records : List Record) (k n : ℕ) : Decidable (Clean start records k n) :=
  inferInstanceAs (Decidable (_ ∨ _))

theorem WholeWithin.cons {start : ℕ} {record : Record} {records : List Record} {k n : ℕ}
    (h : WholeWithin (start + record.encode.length) records k n) : WholeWithin start (record :: records) k (n + 1) where
  le := Nat.succ_le_succ h.le
  fits := by
    have hfits := h.fits
    rw [List.take_succ_cons, List.flatMap_cons, List.length_append]
    omega
  next hlt := by
    have hnext := h.next (Nat.lt_of_succ_lt_succ hlt)
    rw [List.take_succ_cons, List.flatMap_cons, List.length_append]
    omega

theorem clean_cons {start : ℕ} {record : Record} {records : List Record} {k n : ℕ} :
    Clean start (record :: records) k (n + 1) ↔ Clean (start + record.encode.length) records k n := by
  unfold Clean
  rw [List.take_succ_cons, List.flatMap_cons, List.length_append, List.length_cons]
  omega

theorem wholeWithin_none {start : ℕ} {record : Record} {records : List Record} {k : ℕ} (hstart : start ≤ k)
    (hcut : k < start + record.encode.length) : WholeWithin start (record :: records) k 0 where
  le := Nat.zero_le _
  fits := hstart
  next _ := by simpa using hcut

/-- What can be read of a cut capture: the records before the cut, and an error if the cut
falls inside the packet of the next one. -/
theorem readable_prefix {k start : ℕ} (hstart : start ≤ k) (records : List Record) : ∃ n, WholeWithin start records k n ∧
    readable k (locate start records) =
      (records.take n).map .ok ++ if Clean start records k n then [] else [.error .unexpectedEof] := by
  induction records generalizing start with
  | nil =>
    refine ⟨0, ⟨le_rfl, hstart, fun h => absurd h (Nat.lt_irrefl 0)⟩, ?_⟩
    rw [if_pos (.inl rfl)]
    simp [locate, readable]
  | cons record records ih =>
    have hlen := record.encode_length
    by_cases hheader : k < start + 10
    · refine ⟨0, wholeWithin_none hstart (by omega), ?_⟩
      rw [if_pos (.inr hheader)]
      exact readable_none hheader
    · by_cases hwhole : start + record.encode.length ≤ k
      · obtain ⟨n, hn, heq⟩ := ih hwhole
        refine ⟨n + 1, hn.cons, ?_⟩
        simp only [readable_cons hwhole, heq, clean_cons, List.take_succ_cons, List.map_cons, List.cons_append]
      · refine ⟨0, wholeWithin_none hstart (Nat.lt_of_not_le hwhole), ?_⟩
        have htorn : ¬ Clean start (record :: records) k 0 := by
          rintro (h | h)
          · exact absurd h (Nat.succ_ne_zero _).symm
          · exact hheader h
        rw [if_neg htorn]
        exact readable_cut (Nat.le_of_not_lt hheader) (Nat.lt_of_not_le hwhole)

end

/- A capture of the records, as the writer leaves it. -/
def capture (records : List Record) : Bytes := magic ++ records.flatMap Record.encode

omit [Hasher] in
theorem new_capture_take (records : List Record) {k : ℕ} (hk : 8 ≤ k) :
    Reader.new ((capture records).take k) = .ok ⟨(records.flatMap Record.encode).take (k - 8)⟩ := by
  have htake : (capture records).take k = magic ++ (records.flatMap Record.encode).take (k - 8) := by
    rw [capture, List.take_append, List.take_of_length_le hk]
    rfl
  rw [htake, Reader.new_magic]

/-- A cut capture is replayed as the packets of its whole records would be pushed; the
result is their number, or the error of the record that was cut. -/
theorem replay_cut (wincode : Wincode E) (d : Deshredder) {records : List Record} (hacc : ∀ r ∈ records, r.Accepted)
    {k : ℕ} (hk : 8 ≤ k) : ∃ reader n, Reader.new ((capture records).take k) = .ok reader ∧ WholeWithin 8 records k n ∧
      replay wincode reader d = (Deshredder.pushEach wincode d ((records.take n).map Record.packet)).map fun r =>
        (r.1, r.2, if Clean 8 records k n then .ok n else .error .unexpectedEof) := by
  obtain ⟨n, hn, heq⟩ := readable_prefix hk records
  have hitems : Reader.items ⟨(records.flatMap Record.encode).take (k - 8)⟩ =
      (records.take n).map .ok ++ if Clean 8 records k n then [] else [.error .unexpectedEof] := by
    rw [items_take hacc hk, heq]
  have hlen : (records.take n).length = n := by
    rw [List.length_take]
    exact min_eq_left hn.le
  refine ⟨_, n, new_capture_take records hk, hn, ?_⟩
  rw [replay_items wincode d hitems, hlen]

omit [Hasher] in
theorem items_whole {records : List Record} (hacc : ∀ r ∈ records, r.Accepted) :
    Reader.items ⟨records.flatMap Record.encode⟩ = records.map .ok := by
  have hwhole := items_take hacc (Nat.le_add_right 8 (records.flatMap Record.encode).length)
  rw [Nat.add_sub_cancel_left, List.take_length, readable_all le_rfl] at hwhole
  exact hwhole

/-- A whole capture is replayed as its packets would be pushed: to the end, or into the
same panic. -/
theorem replay_whole (wincode : Wincode E) (d : Deshredder) {records : List Record} (hacc : ∀ r ∈ records, r.Accepted) :
    ∃ reader, Reader.new (capture records) = .ok reader ∧
      replay wincode reader d = match Deshredder.pushEach wincode d (records.map Record.packet) with
        | .error p => .error p
        | .ok (d', out) => .ok (d', out, .ok records.length) := by
  have hitems : Reader.items ⟨records.flatMap Record.encode⟩ =
      records.map .ok ++ if True then [] else [.error .unexpectedEof] := by
    rw [items_whole hacc, if_pos trivial, List.append_nil]
  refine ⟨_, Reader.new_magic _, ?_⟩
  rw [replay_items wincode d hitems]
  cases Deshredder.pushEach wincode d (records.map Record.packet) with
  | error p => rfl
  | ok r => rfl

end Fixture
end Deshred
