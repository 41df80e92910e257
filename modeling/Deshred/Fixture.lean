import Deshred.Bytes

/-!
# Recorded datagrams (fixture.rs)

A capture is an 8-byte magic, then records of a timestamp, a length and the bytes. The
stream is in memory: `write_all` appends, and `read_exact` takes the bytes asked for or
uses up what is left.
-/

namespace Deshred
namespace Fixture

/-- `b"SHREDS\x00\x01"`. -/
def magic : Bytes := [0x53, 0x48, 0x52, 0x45, 0x44, 0x53, 0x00, 0x01]

/- The kinds of `io::Error` that come up, with the texts that are the program's own. -/
inductive Error where
  | invalidInput (message : String)
  | invalidData (message : String)
  | unexpectedEof
  deriving DecidableEq

structure Record where
  unixNanos : UInt64
  packet : Bytes
  deriving DecidableEq

/-! ### Writing -/

structure Writer where
  inner : Bytes

namespace Writer

def writeAll (inner bytes : Bytes) : Bytes := inner ++ bytes

def new (inner : Bytes) : Writer := ⟨writeAll inner magic⟩

def tooLong : Error := .invalidInput "packet longer than u16"

def writeAt (w : Writer) (unixNanos : UInt64) (packet : Bytes) : Writer × Except Error Unit :=
  if packet.length < 2 ^ 16 then
    let inner := writeAll w.inner (leBytes 8 unixNanos.toNat)
    let inner := writeAll inner (leBytes 2 packet.length)
    (⟨writeAll inner packet⟩, .ok ())
  else (w, .error tooLong)

/- Any calls of `write_at`, with what each returned. -/
def writeEach (w : Writer) : List Record → Writer × List (Except Error Unit)
  | [] => (w, [])
  | r :: rs =>
    let (w, result) := w.writeAt r.unixNanos r.packet
    let (w, results) := w.writeEach rs
    (w, result :: results)

end Writer

/-! ### Reading -/

structure Reader where
  inner : Bytes
  deriving DecidableEq

namespace Reader

def readExact (inner : Bytes) (n : ℕ) : Except Error Bytes × Bytes :=
  if n ≤ inner.length then (.ok (inner.take n), inner.drop n) else (.error .unexpectedEof, [])

def new (inner : Bytes) : Except Error Reader :=
  match readExact inner 8 with
  | (.error e, _) => .error e
  | (.ok read, inner) => if read ≠ magic then .error (.invalidData "not a shred fixture") else .ok ⟨inner⟩

/- An end inside a header is the end of the capture, not an error. -/
def next (r : Reader) : Option (Except Error Record) × Reader :=
  match readExact r.inner 10 with
  | (.error .unexpectedEof, inner) => (none, ⟨inner⟩)
  | (.error e, inner) => (some (.error e), ⟨inner⟩)
  | (.ok header, inner) =>
    let unixNanos := UInt64.ofNat (leAt header 0 8)
    let len := leAt header 8 2
    match readExact inner len with
    | (.error e, inner) => (some (.error e), ⟨inner⟩)
    | (.ok packet, inner) => (some (.ok ⟨unixNanos, packet⟩), ⟨inner⟩)

theorem readExact_length (inner : Bytes) (n : ℕ) : (readExact inner n).2.length ≤ inner.length - n := by
  unfold readExact
  split
  · rw [List.length_drop]
  · simp

theorem readExact_of_le {inner : Bytes} {n : ℕ} (h : n ≤ inner.length) :
    readExact inner n = (.ok (inner.take n), inner.drop n) := if_pos h

theorem readExact_of_lt {inner : Bytes} {n : ℕ} (h : inner.length < n) :
    readExact inner n = (.error .unexpectedEof, []) := if_neg (Nat.not_le_of_lt h)

/-- Every item uses up a header at least. -/
theorem next_length {r r' : Reader} {item : Except Error Record} (h : r.next = (some item, r')) :
    r'.inner.length < r.inner.length := by
  by_cases hlen : 10 ≤ r.inner.length
  · have hrest := readExact_length (r.inner.drop 10) (leAt (r.inner.take 10) 8 2)
    rw [next, readExact_of_le hlen] at h
    dsimp only at h
    rw [List.length_drop] at hrest
    generalize readExact (r.inner.drop 10) (leAt (r.inner.take 10) 8 2) = read at h hrest
    obtain ⟨_ | packet, inner⟩ := read
    · simp only [Prod.mk.injEq] at h
      rw [← h.2]
      dsimp only at hrest ⊢
      omega
    · simp only [Prod.mk.injEq] at h
      rw [← h.2]
      dsimp only at hrest ⊢
      omega
  · rw [next, readExact_of_lt (by omega)] at h
    simp at h

/- What iterating yields before the first `None`. -/
def items (r : Reader) : List (Except Error Record) :=
  match _h : r.next with
  | (none, _) => []
  | (some item, r') => item :: r'.items
termination_by r.inner.length
decreasing_by exact next_length _h

theorem items_none {r r' : Reader} (h : r.next = (none, r')) : r.items = [] := by
  unfold items
  split
  · rfl
  · rename_i h'
    rw [h] at h'
    simp at h'

theorem items_some {r r' : Reader} {item : Except Error Record} (h : r.next = (some item, r')) :
    r.items = item :: r'.items := by
  rw [items]
  split
  · rename_i h'
    rw [h] at h'
    simp at h'
  · rename_i h'
    rw [h] at h'
    simp only [Prod.mk.injEq, Option.some.injEq] at h'
    rw [h'.1, h'.2]

theorem items_empty : items ⟨[]⟩ = [] := items_none (show next ⟨[]⟩ = (none, ⟨[]⟩) from rfl)

end Reader

/-! ### Where the records are -/

namespace Record

/- A packet that `write_at` takes. -/
def Accepted (r : Record) : Prop := r.packet.length < 2 ^ 16

instance (r : Record) : Decidable r.Accepted := inferInstanceAs (Decidable (_ < _))

def header (r : Record) : Bytes := leBytes 8 r.unixNanos.toNat ++ leBytes 2 r.packet.length

def encode (r : Record) : Bytes := r.header ++ r.packet

theorem header_length (r : Record) : r.header.length = 10 := by
  simp [header]

theorem encode_length (r : Record) : r.encode.length = 10 + r.packet.length := by
  rw [encode, List.length_append, header_length]

theorem header_nanos (r : Record) : UInt64.ofNat (leAt r.header 0 8) = r.unixNanos := by
  have hlt : r.unixNanos.toNat < 256 ^ 8 := r.unixNanos.toNat_lt
  have h := leAt_leBytes [] (leBytes 2 r.packet.length) hlt
  rw [List.nil_append, List.length_nil] at h
  rw [header, h, UInt64.ofNat_toNat]

theorem header_len {r : Record} (hr : r.Accepted) : leAt r.header 8 2 = r.packet.length := by
  have h := leAt_leBytes (leBytes 8 r.unixNanos.toNat) [] (n := 2) (v := r.packet.length) hr
  rw [List.append_nil, leBytes_length] at h
  exact h

end Record

/- A record and the place of its first byte in the capture. -/
structure Located where
  start : ℕ
  record : Record

namespace Located

def headerEnd (x : Located) : ℕ := x.start + 10

def stop (x : Located) : ℕ := x.headerEnd + x.record.packet.length

/-- A cut at `k` leaves the whole header and not the whole packet: it falls after the
header and before the end, or right after the header of a packet that is not empty. -/
def Cut (k : ℕ) (x : Located) : Prop :=
  x.headerEnd < k ∧ k < x.stop ∨ k = x.headerEnd ∧ x.record.packet ≠ []

instance (k : ℕ) (x : Located) : Decidable (x.Cut k) := inferInstanceAs (Decidable (_ ∨ _))

theorem cut_iff {k : ℕ} {x : Located} : x.Cut k ↔ x.headerEnd ≤ k ∧ k < x.stop := by
  have hpos : x.record.packet ≠ [] ↔ 0 < x.record.packet.length := List.length_pos_iff.symm
  rw [Cut, hpos]
  unfold stop
  omega

end Located

def locate (start : ℕ) : List Record → List Located
  | [] => []
  | r :: rs => ⟨start, r⟩ :: locate (start + r.encode.length) rs

theorem start_le_of_mem {start : ℕ} {rs : List Record} {x : Located} (hx : x ∈ locate start rs) :
    start ≤ x.start := by
  induction rs generalizing start with
  | nil => simp [locate] at hx
  | cons r rs ih =>
    rcases List.mem_cons.mp hx with rfl | hx
    · exact le_rfl
    · exact (Nat.le_add_right _ _).trans (ih hx)

/-- The records that end at or before the cut, then the error of one cut inside its packet. -/
def readable (k : ℕ) (xs : List Located) : List (Except Error Record) :=
  ((xs.filter fun x => x.stop ≤ k).map fun x => .ok x.record) ++
    if ∃ x ∈ xs, x.Cut k then [.error .unexpectedEof] else []

/-! ### Reading a cut capture -/

theorem readable_none {k start : ℕ} {rs : List Record} (h : k < start + 10) : readable k (locate start rs) = [] := by
  have hfar : ∀ x ∈ locate start rs, k < x.headerEnd := by
    intro x hx
    have hs := start_le_of_mem hx
    unfold Located.headerEnd
    omega
  have hstop : (locate start rs).filter (fun x => x.stop ≤ k) = [] := by
    rw [List.filter_eq_nil_iff]
    intro x hx
    have hk := hfar x hx
    unfold Located.stop
    simp only [decide_eq_true_eq]
    omega
  have hcut : ¬ ∃ x ∈ locate start rs, x.Cut k := by
    rintro ⟨x, hx, hc⟩
    have hk := hfar x hx
    rw [Located.cut_iff] at hc
    omega
  rw [readable, hstop, if_neg hcut]
  rfl

theorem readable_cut {k start : ℕ} {r : Record} {rs : List Record} (hlo : start + 10 ≤ k)
    (hhi : k < start + r.encode.length) : readable k (locate start (r :: rs)) = [.error .unexpectedEof] := by
  have hstop : Located.stop ⟨start, r⟩ = start + r.encode.length := by
    rw [r.encode_length]
    simp only [Located.stop, Located.headerEnd]
    omega
  have hrest : (locate (start + r.encode.length) rs).filter (fun x => x.stop ≤ k) = [] := by
    rw [List.filter_eq_nil_iff]
    intro x hx
    have hs := start_le_of_mem hx
    unfold Located.stop Located.headerEnd
    simp only [decide_eq_true_eq]
    omega
  have hcut : ∃ x ∈ locate start (r :: rs), x.Cut k :=
    ⟨⟨start, r⟩, List.mem_cons_self .., Located.cut_iff.mpr ⟨hlo, by omega⟩⟩
  rw [readable, if_pos hcut, locate, List.filter_cons_of_neg (by simp only [hstop, decide_eq_true_eq]; omega), hrest]
  rfl

theorem readable_cons {k start : ℕ} {r : Record} {rs : List Record} (h : start + r.encode.length ≤ k) :
    readable k (locate start (r :: rs)) = .ok r :: readable k (locate (start + r.encode.length) rs) := by
  have hstop : Located.stop ⟨start, r⟩ = start + r.encode.length := by
    rw [r.encode_length]
    simp only [Located.stop, Located.headerEnd]
    omega
  have hcut : (∃ x ∈ locate start (r :: rs), x.Cut k) ↔ ∃ x ∈ locate (start + r.encode.length) rs, x.Cut k := by
    have hnot : ¬ Located.Cut k ⟨start, r⟩ := by
      rw [Located.cut_iff]
      omega
    simp [locate, hnot]
  simp only [readable, hcut]
  rw [locate, List.filter_cons_of_pos (by simpa only [hstop, decide_eq_true_eq] using h)]
  rfl

namespace Reader

theorem next_short {inner : Bytes} (h : inner.length < 10) : next ⟨inner⟩ = (none, ⟨[]⟩) := by
  rw [next, readExact_of_lt h]

theorem readExact_header (r : Record) (rest : Bytes) : readExact (r.header ++ rest) 10 = (.ok r.header, rest) := by
  rw [readExact_of_le (by rw [List.length_append, r.header_length]; omega), List.take_left' r.header_length,
    List.drop_left' r.header_length]

theorem next_cut {r : Record} (hr : r.Accepted) {rest : Bytes} (h : rest.length < r.packet.length) :
    next ⟨r.header ++ rest⟩ = (some (.error .unexpectedEof), ⟨[]⟩) := by
  simp only [next, readExact_header, Record.header_len hr, readExact_of_lt h]

theorem next_whole {r : Record} (hr : r.Accepted) (rest : Bytes) :
    next ⟨r.encode ++ rest⟩ = (some (.ok r), ⟨rest⟩) := by
  have hread : readExact (r.packet ++ rest) r.packet.length = (.ok r.packet, rest) := by
    rw [readExact_of_le (by rw [List.length_append]; omega), List.take_left, List.drop_left]
  rw [Record.encode, List.append_assoc]
  simp only [next, readExact_header, Record.header_len hr, hread, r.header_nanos]

end Reader

/-- Reading on after the records before `start`, with the capture cut at `k`. -/
theorem items_take {rs : List Record} (hrs : ∀ r ∈ rs, r.Accepted) {start k : ℕ} (hk : start ≤ k) :
    Reader.items ⟨(rs.flatMap Record.encode).take (k - start)⟩ = readable k (locate start rs) := by
  induction rs generalizing start with
  | nil =>
    rw [List.flatMap_nil, List.take_nil]
    exact Reader.items_empty
  | cons r rs ih =>
    have hr := hrs r (List.mem_cons_self ..)
    have hlen := r.encode_length
    rw [List.flatMap_cons]
    by_cases hheader : k < start + 10
    · -- the cut falls before the end of the header
      have hshort : ((r.encode ++ rs.flatMap Record.encode).take (k - start)).length < 10 := by
        rw [List.length_take]
        omega
      rw [Reader.items_none (Reader.next_short hshort), readable_none hheader]
    · by_cases hpacket : k < start + r.encode.length
      · have hsplit : (r.encode ++ rs.flatMap Record.encode).take (k - start) =
            r.header ++ (r.packet ++ rs.flatMap Record.encode).take (k - start - 10) := by
          rw [Record.encode, List.append_assoc, List.take_append, r.header_length,
            List.take_of_length_le (by rw [r.header_length]; omega)]
        have hshort : ((r.packet ++ rs.flatMap Record.encode).take (k - start - 10)).length < r.packet.length := by
          rw [List.length_take]
          omega
        rw [hsplit, Reader.items_some (Reader.next_cut hr hshort), Reader.items_empty, readable_cut (by omega) hpacket]
      · have hsplit : (r.encode ++ rs.flatMap Record.encode).take (k - start) =
            r.encode ++ (rs.flatMap Record.encode).take (k - (start + r.encode.length)) := by
          rw [List.take_append, List.take_of_length_le (by omega), Nat.sub_sub]
        rw [hsplit, Reader.items_some (Reader.next_whole hr _), ih (fun x hx => hrs x (List.mem_cons_of_mem _ hx)) (by omega),
          readable_cons (by omega)]

theorem readable_all {k start : ℕ} {rs : List Record} (h : start + (rs.flatMap Record.encode).length ≤ k) :
    readable k (locate start rs) = rs.map .ok := by
  induction rs generalizing start with
  | nil => rfl
  | cons r rs ih =>
    rw [List.flatMap_cons, List.length_append] at h
    rw [readable_cons (by omega), ih (by omega), List.map_cons]

/-! ### The whole capture -/

namespace Writer

theorem writeAt_accepted {w : Writer} {r : Record} (hr : r.Accepted) :
    w.writeAt r.unixNanos r.packet = (⟨w.inner ++ r.encode⟩, .ok ()) := by
  have hlt : r.packet.length < 2 ^ 16 := hr
  rw [writeAt, if_pos hlt]
  simp only [writeAll, Record.encode, Record.header, List.append_assoc]

theorem writeAt_refused {w : Writer} {r : Record} (hr : ¬ r.Accepted) :
    w.writeAt r.unixNanos r.packet = (w, .error tooLong) := if_neg hr

theorem writeEach_eq (w : Writer) (calls : List Record) : w.writeEach calls =
    (⟨w.inner ++ (calls.filter fun r => r.Accepted).flatMap Record.encode⟩,
      calls.map fun r => if r.Accepted then .ok () else .error tooLong) := by
  induction calls generalizing w with
  | nil => simp [writeEach]
  | cons r rs ih =>
    by_cases hr : r.Accepted
    · simp only [writeEach, writeAt_accepted hr, ih, List.map_cons, if_pos hr,
        List.filter_cons_of_pos (p := fun r : Record => decide r.Accepted) (decide_eq_true hr),
        List.flatMap_cons, List.append_assoc]
    · simp only [writeEach, writeAt_refused hr, ih, List.map_cons, if_neg hr,
        List.filter_cons_of_neg (p := fun r : Record => decide r.Accepted) (by simpa using hr)]

end Writer

theorem Reader.new_magic (rest : Bytes) : Reader.new (magic ++ rest) = .ok ⟨rest⟩ := by
  have hle : 8 ≤ (magic ++ rest).length := by
    rw [List.length_append]
    exact Nat.le_add_right 8 _
  have htake : (magic ++ rest).take 8 = magic := List.take_left' rfl
  have hdrop : (magic ++ rest).drop 8 = rest := List.drop_left' rfl
  simp only [Reader.new, Reader.readExact_of_le hle, htake, hdrop, ne_eq, not_true_eq_false, ↓reduceIte]

/-- Whatever was written and wherever the capture was cut after its magic, reading it
yields the accepted records that are whole, then the error of one cut inside its packet. -/
theorem capture_reads_back (calls : List Record) {k : ℕ} (hk : 8 ≤ k) :
    let capture := ((Writer.new []).writeEach calls).1.inner
    let accepted := calls.filter fun r => r.packet.length ≤ 65535
    (∀ (w : Writer) (unixNanos : UInt64) (packet : Bytes), 65535 < packet.length →
      w.writeAt unixNanos packet = (w, .error (.invalidInput "packet longer than u16"))) ∧
    ((Writer.new []).writeEach calls).2 = (calls.map fun r =>
      if r.packet.length ≤ 65535 then .ok () else .error (.invalidInput "packet longer than u16")) ∧
    (∃ reader, Reader.new (capture.take k) = .ok reader ∧ reader.items = readable k (locate 8 accepted)) ∧
    ∃ reader, Reader.new capture = .ok reader ∧ reader.items = accepted.map .ok := by
  intro capture accepted
  have hacc : ∀ r : Record, r.Accepted ↔ r.packet.length ≤ 65535 := fun r => Nat.lt_succ_iff
  have hall : ∀ r ∈ accepted, r.Accepted := by
    intro r hr
    rw [hacc]
    simpa using (List.mem_filter.mp hr).2
  have hfilter : (calls.filter fun r => r.Accepted) = accepted :=
    List.filter_congr fun r _ => decide_eq_decide.mpr (hacc r)
  have heach := (Writer.new []).writeEach_eq calls
  rw [hfilter] at heach
  have hcapture : capture = magic ++ accepted.flatMap Record.encode := congrArg (fun w => w.1.inner) heach
  refine ⟨fun w unixNanos packet hlong => ?_, ?_, ⟨_, ?_, items_take hall hk⟩, ⟨accepted.flatMap Record.encode⟩, ?_, ?_⟩
  · exact if_neg (Nat.not_lt_of_le hlong)
  · rw [heach]
    exact List.map_congr_left fun r _ => if_congr (hacc r) rfl rfl
  · have htake : capture.take k = magic ++ (accepted.flatMap Record.encode).take (k - 8) := by
      rw [hcapture, List.take_append, List.take_of_length_le hk]
      rfl
    rw [htake, Reader.new_magic]
  · rw [hcapture, Reader.new_magic]
  · have hwhole := items_take hall (Nat.le_add_right 8 (accepted.flatMap Record.encode).length)
    rw [Nat.add_sub_cancel_left, List.take_length, readable_all le_rfl] at hwhole
    exact hwhole

/-- Two records, and a cut 2 bytes into the packet of the second. -/
theorem capture_reads_back_cut :
    let first : Record := ⟨1, [97, 98, 99]⟩
    let capture := ((Writer.new []).writeEach [first, ⟨2, [1, 2, 3, 4, 5]⟩]).1.inner
    ∃ reader, Reader.new (capture.take 33) = .ok reader ∧ reader.items = [.ok first, .error .unexpectedEof] :=
  (capture_reads_back [⟨1, [97, 98, 99]⟩, ⟨2, [1, 2, 3, 4, 5]⟩] (by decide)).2.2.1

end Fixture
end Deshred
