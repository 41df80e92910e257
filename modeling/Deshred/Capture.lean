import Deshred.Decoding
import Deshred.Format

/-!
# Any file as a capture (fixture.rs)

Whatever bytes the reader opens are a capture that the writer could have left, followed by
less than one whole record. The cut is unique, so what iterating and replaying do is
known for every file, not only for those that a `Writer` wrote.
-/

namespace Deshred
namespace Fixture

/- Too short for the header, or for the packet that the header announces. -/
def Torn (tail : Bytes) : Prop := tail.length < 10 + leAt tail 8 2

instance (tail : Bytes) : Decidable (Torn tail) := inferInstanceAs (Decidable (_ < _))

/- What the reader makes of a torn record: an end inside the header is no error. -/
def tornItems (tail : Bytes) : List (Except Error Record) :=
  if tail.length < 10 then [] else [.error .unexpectedEof]

namespace Record

/- The record at the front of the bytes. -/
def read (b : Bytes) : Record where
  unixNanos := UInt64.ofNat (leAt b 0 8)
  packet := (b.drop 10).take (leAt b 8 2)

theorem read_accepted (b : Bytes) : (read b).Accepted := by
  have hlt := leAt_lt b 8 2
  simp only [Accepted, read, List.length_take]
  omega

theorem read_packet_length {b : Bytes} (h : ¬ Torn b) : (read b).packet.length = leAt b 8 2 := by
  have hwhole := Nat.le_of_not_lt h
  simp only [read, List.length_take, List.length_drop]
  omega

/-- A whole record is written back as it was read. -/
theorem read_encode {b : Bytes} (h : ¬ Torn b) : (read b).encode ++ b.drop (10 + leAt b 8 2) = b := by
  have hwhole := Nat.le_of_not_lt h
  have hnanos : (read b).unixNanos.toNat = leAt b 0 8 := Nat.mod_eq_of_lt (leAt_lt b 0 8)
  have hheader : (read b).header = b.take 10 := by
    rw [header, hnanos, read_packet_length h, leBytes_leAt (by omega), leBytes_leAt (by omega)]
    exact take_extend b 8 2
  rw [encode, hheader, read, take_extend]
  exact List.take_append_drop _ b

end Record

/-! ### Every file is a capture and a torn record -/

theorem splits (inner : Bytes) : ∃ (records : List Record) (tail : Bytes), (∀ r ∈ records, r.Accepted) ∧
    inner = records.flatMap Record.encode ++ tail ∧ Torn tail := by
  induction hn : inner.length using Nat.strong_induction_on generalizing inner with
  | _ n ih =>
    by_cases htorn : Torn inner
    · exact ⟨[], inner, List.forall_mem_nil _, rfl, htorn⟩
    · have hwhole := Nat.le_of_not_lt htorn
      have hshort : (inner.drop (10 + leAt inner 8 2)).length < n := by
        rw [List.length_drop]
        omega
      obtain ⟨records, tail, hacc, hrest, htail⟩ := ih _ hshort _ rfl
      have hinner := (Record.read_encode htorn).symm
      rw [hrest, ← List.append_assoc, ← List.flatMap_cons] at hinner
      exact ⟨_, tail, List.forall_mem_cons.mpr ⟨Record.read_accepted inner, hacc⟩, hinner, htail⟩

theorem items_torn {tail : Bytes} (h : Torn tail) : Reader.items ⟨tail⟩ = tornItems tail := by
  unfold tornItems
  split
  · rename_i hheader
    exact Reader.items_none (Reader.next_short hheader)
  · rename_i hheader
    have hlt : tail.length < 10 + leAt tail 8 2 := h
    have hlen : leAt (tail.take 10) 8 2 = leAt tail 8 2 := leAt_take tail (by omega)
    have hcut : (tail.drop 10).length < leAt tail 8 2 := by
      rw [List.length_drop]
      omega
    have hnext : Reader.next ⟨tail⟩ = (some (.error .unexpectedEof), ⟨[]⟩) := by
      simp only [Reader.next, Reader.readExact_of_le (Nat.le_of_not_lt hheader), hlen, Reader.readExact_of_lt hcut]
    rw [Reader.items_some hnext, Reader.items_empty]

theorem items_records {records : List Record} (hacc : ∀ r ∈ records, r.Accepted) {tail : Bytes} (h : Torn tail) :
    Reader.items ⟨records.flatMap Record.encode ++ tail⟩ = records.map .ok ++ tornItems tail := by
  induction records with
  | nil => exact items_torn h
  | cons r rs ih =>
    obtain ⟨hr, hrs⟩ := List.forall_mem_cons.mp hacc
    rw [List.flatMap_cons, List.append_assoc, Reader.items_some (Reader.next_whole hr _), ih hrs, List.map_cons,
      List.cons_append]

/- The records that were read, without the error after them. -/
theorem records_of_items (records : List Record) (tail : Bytes) :
    (records.map Except.ok ++ tornItems tail).filterMap Except.toOption = records := by
  have hok : (records.map fun r => (.ok r : Except Error Record)).filterMap Except.toOption = records := by
    rw [List.filterMap_map]
    exact List.filterMap_some
  have htorn : (tornItems tail).filterMap Except.toOption = [] := by
    unfold tornItems
    split <;> rfl
  rw [List.filterMap_append, hok, htorn, List.append_nil]

/-- Records of one file are read in one way only. -/
theorem splits_unique {records records' : List Record} {tail tail' : Bytes} (hacc : ∀ r ∈ records, r.Accepted)
    (hacc' : ∀ r ∈ records', r.Accepted) (htail : Torn tail) (htail' : Torn tail')
    (h : records.flatMap Record.encode ++ tail = records'.flatMap Record.encode ++ tail') :
    records = records' ∧ tail = tail' := by
  have hitems := items_records hacc htail
  rw [h, items_records hacc' htail'] at hitems
  have hrecords := congrArg (List.filterMap Except.toOption) hitems
  rw [records_of_items, records_of_items] at hrecords
  subst hrecords
  exact ⟨rfl, List.append_cancel_left h⟩

/-! ### Opening and replaying -/

theorem opened_iff {b : Bytes} {reader : Reader} : Reader.new b = .ok reader ↔ b = magic ++ reader.inner := by
  constructor
  · intro h
    by_cases hlen : 8 ≤ b.length
    · have hread := Reader.readExact_of_le hlen
      by_cases hmagic : b.take 8 = magic
      · simp only [Reader.new, hread, hmagic, ne_eq, not_true_eq_false, ↓reduceIte, Except.ok.injEq] at h
        rw [← h, ← hmagic, List.take_append_drop]
      · simp only [Reader.new, hread, ne_eq, hmagic, not_false_eq_true, ↓reduceIte, reduceCtorEq] at h
    · simp only [Reader.new, Reader.readExact_of_lt (Nat.lt_of_not_le hlen), reduceCtorEq] at h
  · intro h
    rw [h, Reader.new_magic]

theorem writeEach_capture {records : List Record} (hacc : ∀ r ∈ records, r.Accepted) :
    ((Writer.new []).writeEach records).1.inner = capture records := by
  have hall : (records.filter fun r => r.Accepted) = records := by
    rw [List.filter_eq_self]
    exact fun r hr => decide_eq_true (hacc r hr)
  rw [Writer.writeEach_eq, hall]
  rfl

section
variable {E : Type} [Hasher]

/-- Any file that the reader opens is, in one way only, what the writer leaves for some
records followed by less than a record. Iterating yields these records, and `UnexpectedEof`
if the tail still has a whole header; replaying pushes them one by one and returns their
number, or that error. -/
theorem any_file_replays (b : Bytes) (reader : Reader) (hopen : Reader.new b = .ok reader) :
    ∃ (records : List Record) (tail : Bytes), (∀ r ∈ records, r.Accepted) ∧ Torn tail ∧
      b = ((Writer.new []).writeEach records).1.inner ++ tail ∧
      (∀ (records' : List Record) (tail' : Bytes), (∀ r ∈ records', r.Accepted) → Torn tail' →
        b = ((Writer.new []).writeEach records').1.inner ++ tail' → records' = records ∧ tail' = tail) ∧
      reader.items = records.map .ok ++ (if tail.length < 10 then [] else [.error .unexpectedEof]) ∧
      ∀ (wincode : Wincode E) (d : Deshredder),
        replay wincode reader d = (Deshredder.pushEach wincode d (records.map Record.packet)).map fun r =>
          (r.1, r.2, if tail.length < 10 then .ok records.length else .error .unexpectedEof) := by
  have hb := opened_iff.mp hopen
  obtain ⟨records, tail, hacc, hinner, htail⟩ := splits reader.inner
  have hwritten : b = ((Writer.new []).writeEach records).1.inner ++ tail := by
    rw [writeEach_capture hacc, hb, hinner, capture, List.append_assoc]
  have hreader : reader = ⟨records.flatMap Record.encode ++ tail⟩ := by
    rw [← hinner]
  refine ⟨records, tail, hacc, htail, hwritten, ?_, ?_, ?_⟩
  · intro records' tail' hacc' htail' heq
    rw [hwritten, writeEach_capture hacc, writeEach_capture hacc', capture, capture, List.append_assoc,
      List.append_assoc] at heq
    exact splits_unique hacc' hacc htail' htail (List.append_cancel_left heq).symm
  · rw [hreader]
    exact items_records hacc htail
  · intro wincode d
    rw [hreader]
    exact replay_items wincode d (items_records hacc htail)

end

/-- A datagram that brings out a batch is recorded, of the next only the header. -/
theorem any_file_replays_torn :
    let : Hasher := sha256Hasher
    let record : Record := ⟨5, samplePacket (0, .data 0)⟩
    let reader : Reader := ⟨record.encode ++ record.header⟩
    Reader.new (magic ++ reader.inner) = .ok reader ∧ reader.items = [.ok record, .error .unexpectedEof] ∧
      ∃ d, replay layoutDecoder reader (Deshredder.new ⟨none, 64, true⟩ sampleRs) =
        .ok (d, [sampleBatch 0], .error .unexpectedEof) := by
  intro _ record reader
  have hopen : Reader.new (magic ++ reader.inner) = .ok reader := Reader.new_magic _
  obtain ⟨records, tail, hacc, htorn, hb, hunique, hitems, hreplay⟩ := any_file_replays _ _ hopen
  have hrecord : record.packet.length = 1203 := samplePacket_length 0
  have haccepted : record.Accepted := by
    rw [Record.Accepted, hrecord]
    decide
  have htail : Torn record.header := by
    rw [Torn, Record.header_length, Record.header_len haccepted, hrecord]
    decide
  have hone : ∀ r ∈ [record], r.Accepted := List.forall_mem_singleton.mpr haccepted
  obtain ⟨hrecords, hrest⟩ := hunique [record] record.header hone htail (by
    rw [writeEach_capture hone, capture, List.flatMap_singleton, List.append_assoc])
  subst hrecords hrest
  have hshort : ¬ record.header.length < 10 := by
    rw [Record.header_length]
    decide
  rw [if_neg hshort] at hitems
  obtain ⟨d, hpush, _⟩ := Deshredder.Primed.new.next (show 0 < 32 by decide)
  have heach : Deshredder.pushEach layoutDecoder (Deshredder.new ⟨none, 64, true⟩ sampleRs) ([record].map Record.packet) =
      .ok (d, [sampleBatch 0]) := Steps.runAll_singleton_ok.mpr hpush
  refine ⟨hopen, hitems, d, ?_⟩
  rw [hreplay layoutDecoder, heach, if_neg hshort]
  rfl

end Fixture
end Deshred
