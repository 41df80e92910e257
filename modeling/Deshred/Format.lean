import Deshred.Wire

/-!
# The shred format (shred.rs)

Reading and writing are inverse to each other: a datagram is accepted exactly when it
starts with a packet that the writing side calls valid, and the shred is that packet's.
-/

namespace Deshred

/-! ### Writing what was read -/

/-- Writing a number that was read gives its bytes back. -/
theorem leBytes_leAt {b : Bytes} {off n : ℕ} (h : off + n ≤ b.length) : leBytes n (leAt b off n) = (b.drop off).take n := by
  have hlen : ((b.drop off).take n).length = n := by
    rw [List.length_take, List.length_drop]
    omega
  have hback := leBytes_leVal ((b.drop off).take n)
  rw [hlen] at hback
  exact hback

theorem u8At_singleton {b : Bytes} {off : ℕ} (h : off < b.length) : [u8At b off] = (b.drop off).take 1 := by
  rw [u8At, List.getD_eq_getElem _ _ h, List.drop_eq_getElem_cons h]
  rfl

theorem take_extend (b : Bytes) (n m : ℕ) : b.take n ++ (b.drop n).take m = b.take (n + m) := List.take_add.symm

namespace CommonHeader

def read (b : Bytes) (h : 83 ≤ b.length) : CommonHeader where
  signature := ⟨b.take 64, List.length_take_of_le (by omega)⟩
  variant := u8At b variantOffset
  slot := u64At b slotOffset
  index := u32At b indexOffset
  version := u16At b versionOffset
  fecSetIndex := u32At b fecSetIndexOffset

theorem bytes_read {b : Bytes} (h : 83 ≤ b.length) : (read b h).bytes = b.take 83 := by
  simp only [bytes, read, u64At, u32At, u16At, variantOffset, slotOffset, indexOffset, versionOffset, fecSetIndexOffset]
  rw [u8At_singleton (by omega), leBytes_leAt (by omega), leBytes_leAt (by omega), leBytes_leAt (by omega),
    leBytes_leAt (by omega), take_extend, take_extend, take_extend, take_extend, take_extend]

end CommonHeader

/-- What an accepted datagram has in its bytes. -/
structure ReadAs (packet : Bytes) (f : ShredFields) : Prop where
  length : wireSize f.kind ≤ packet.length
  bytes : f.bytes = packet.take (wireSize f.kind)
  variant : variantKind (u8At f.bytes variantOffset) = some (f.kind, f.resigned)
  proofSize : f.proofSize = (u8At f.bytes variantOffset &&& 0x0F).toNat
  capacity : capacity f.kind f.proofSize f.resigned = some f.capacity
  slot : f.slot = u64At f.bytes slotOffset
  index : f.index = u32At f.bytes indexOffset
  version : f.version = u16At f.bytes versionOffset
  fecSetIndex : f.fecSetIndex = u32At f.bytes fecSetIndexOffset
  header : parseHeader f.kind f.bytes f.slot f.index f.fecSetIndex f.capacity = .ok f.header

theorem readAs {packet : Bytes} {f : ShredFields} (h : parseFields packet = .ok f) : ReadAs packet f := by
  unfold parseFields at h
  dsimp only at h
  split at h
  · contradiction
  · rename_i variant hvariant
    split at h
    · contradiction
    · rename_i kind resigned hkind
      split at h
      · contradiction
      · rename_i hlen
        split at h
        · contradiction
        · rename_i c hcap
          split at h
          · contradiction
          · split at h
            · contradiction
            · rename_i header hheader
              cases h
              have hwire := wireSize_ge kind
              have hbyte : u8At (packet.take (wireSize kind)) variantOffset = variant := by
                rw [u8At_take packet (by simp only [variantOffset]; omega), u8At, List.getD_eq_getElem?_getD, hvariant]
                rfl
              refine ⟨Nat.le_of_not_lt hlen, rfl, ?_, ?_, hcap, rfl, rfl, rfl, rfl, hheader⟩
              · dsimp only
                rw [hbyte, hkind]
              · dsimp only
                rw [hbyte]

theorem ReadAs.fits {packet : Bytes} {f : ShredFields} (h : ReadAs packet f) (hi : f.index < 32768) (hb : 83 ≤ f.bytes.length) :
    (CommonHeader.read f.bytes hb).Fits where
  slot := leAt_lt _ _ 8
  index := by
    show u32At f.bytes indexOffset < 32768
    rw [← h.index]
    exact hi
  version := leAt_lt _ _ 2
  fecSetIndex := leAt_lt _ _ 4

/-! ### Data shreds -/

/-- The checks of a data header, each of them. -/
theorem parseDataHeader_checks {bytes : Bytes} {slot index fsi c : ℕ} {header : Header}
    (h : parseDataHeader bytes slot index fsi c = .ok header) :
    (u16At bytes parentOffsetOffset = 0 → slot = 0) ∧
      (u8At bytes flagsOffset &&& 0x80 ≠ 0 → u8At bytes flagsOffset &&& flagDataComplete ≠ 0) ∧
      header = .data (u16At bytes parentOffsetOffset) (u8At bytes flagsOffset) (u16At bytes sizeOffset) := by
  unfold parseDataHeader at h
  dsimp only at h
  split at h
  · contradiction
  · split at h
    · contradiction
    · rename_i hparent
      split at h
      · contradiction
      · rename_i hflags
        split at h
        · contradiction
        · cases h
          refine ⟨?_, ?_, rfl⟩
          · intro h0
            by_contra hs
            exact hparent (.inl ⟨h0, hs⟩)
          · intro h80 h40
            exact hflags (.inl ⟨h80, h40⟩)

namespace DataPacket

def read (b : Bytes) (h : 83 ≤ b.length) : DataPacket where
  toCommonHeader := CommonHeader.read b h
  parentOffset := u16At b parentOffsetOffset
  flags := u8At b flagsOffset
  size := u16At b sizeOffset
  body := b.drop 88

theorem packet_read {b : Bytes} (h : 83 ≤ b.length) (hb : b.length = 1203) : (read b h).packet = b := by
  have hhead : (read b h).toCommonHeader.bytes = b.take 83 := CommonHeader.bytes_read h
  rw [packet, hhead, tail]
  simp only [read, u16At, parentOffsetOffset, flagsOffset, sizeOffset]
  rw [leBytes_leAt (by omega), leBytes_leAt (by omega), u8At_singleton (by omega), ← List.append_assoc,
    ← List.append_assoc, ← List.append_assoc, take_extend, take_extend, take_extend]
  exact List.take_append_drop 88 b

theorem read_valid {packet : Bytes} {f : ShredFields} (h : ReadAs packet f) (hf : f.Valid) (hk : f.kind = .data)
    (hb : 83 ≤ f.bytes.length) : (read f.bytes hb).Valid f.resigned f.capacity := by
  have hlen := hf.length
  have hhead := h.header
  rw [hk] at hlen hhead
  obtain ⟨halign, hle, hlt, po, flags, size, heq, hpo, hlast, hsize⟩ := parseDataHeader_ok hhead
  obtain ⟨hroot, hflags, hread⟩ := parseDataHeader_checks hhead
  rw [heq] at hread
  cases hread
  rw [h.fecSetIndex] at halign hle hlt
  rw [h.index] at hle hlt hlast
  rw [h.slot] at hpo hroot
  have hroom := h.capacity
  have hkind := h.variant
  rw [h.proofSize, hk] at hroom
  rw [hk] at hkind
  exact
    { toFits := h.fits hf.index hb
      kind := hkind
      room := hroom
      body := by
        simp only [read, List.length_drop, hlen, wireSize, dataShredSize]
      aligned := halign
      inSet := ⟨hle, hlt⟩
      parent := ⟨leAt_lt _ _ 2, hpo, hroot⟩
      flags := ⟨hflags, hlast⟩
      size := hsize }

end DataPacket

/-! ### Code shreds -/

/-- The checks of a code header, each of them. -/
theorem parseCodeHeader_checks {bytes : Bytes} {index fsi : ℕ} {header : Header}
    (h : parseCodeHeader bytes index fsi = .ok header) : u16At bytes numDataOffset = 32 ∧ u16At bytes numCodeOffset = 32 ∧
      header = .code (u16At bytes positionOffset) := by
  unfold parseCodeHeader at h
  dsimp only at h
  split at h
  · contradiction
  · rename_i hconfig
    cases h
    simp only [dataShredsPerFecSet, codeShredsPerFecSet] at hconfig
    exact ⟨by omega, by omega, rfl⟩

namespace CodePacket

def read (b : Bytes) (h : 83 ≤ b.length) : CodePacket where
  toCommonHeader := CommonHeader.read b h
  position := u16At b positionOffset
  body := b.drop 89

theorem packet_read {b : Bytes} (h : 83 ≤ b.length) (hb : b.length = 1228) (hd : u16At b numDataOffset = 32)
    (hc : u16At b numCodeOffset = 32) : (read b h).packet = b := by
  have hhead : (read b h).toCommonHeader.bytes = b.take 83 := CommonHeader.bytes_read h
  have hdata : leBytes 2 32 = (b.drop 83).take 2 := by
    rw [← hd, u16At, numDataOffset, leBytes_leAt (by omega)]
  have hcode : leBytes 2 32 = (b.drop 85).take 2 := by
    rw [← hc, u16At, numCodeOffset, leBytes_leAt (by omega)]
  have hpos : leBytes 2 (u16At b positionOffset) = (b.drop 87).take 2 := leBytes_leAt (by simp only [positionOffset]; omega)
  calc (read b h).packet = b.take 83 ++ (leBytes 2 32 ++ leBytes 2 32 ++ leBytes 2 (u16At b positionOffset) ++ b.drop 89) := by
        rw [packet, hhead]
        rfl
    _ = b.take 83 ++ ((b.drop 83).take 2 ++ (b.drop 85).take 2 ++ (b.drop 87).take 2 ++ b.drop 89) := by
        nth_rewrite 1 [hdata]
        rw [hcode, hpos]
    _ = b.take 83 ++ (b.drop 83).take 2 ++ (b.drop 85).take 2 ++ (b.drop 87).take 2 ++ b.drop 89 := by
        simp only [List.append_assoc]
    _ = b.take 89 ++ b.drop 89 := by rw [take_extend, take_extend, take_extend]
    _ = b := List.take_append_drop 89 b

theorem read_valid {packet : Bytes} {f : ShredFields} (h : ReadAs packet f) (hf : f.Valid) (hk : f.kind = .code)
    (hb : 83 ≤ f.bytes.length) : (read f.bytes hb).Valid f.resigned f.capacity := by
  have hlen := hf.length
  have hhead := h.header
  rw [hk] at hlen hhead
  obtain ⟨halign, position, heq, hpos⟩ := parseCodeHeader_ok hhead
  obtain ⟨_, _, hread⟩ := parseCodeHeader_checks hhead
  rw [heq] at hread
  cases hread
  rw [h.fecSetIndex] at halign
  rw [h.index] at hpos
  have hroom := h.capacity
  have hkind := h.variant
  rw [h.proofSize, hk] at hroom
  rw [hk] at hkind
  exact
    { toFits := h.fits hf.index hb
      kind := hkind
      room := hroom
      body := by
        simp only [read, List.length_drop, hlen, wireSize, codeShredSize]
      aligned := halign
      position := hpos }

end CodePacket

/-! ### The format -/

/-- A packet followed by anything parses as that packet. -/
theorem Shred.parse_front {packet b : Bytes} {s : Shred} (h : Shred.parse packet = .ok s)
    (hb : b.take (wireSize s.kind) = packet) : Shred.parse b = .ok s := by
  have hpacket := Shred.parse_eq_ok_iff.mp h
  obtain ⟨_, hlen, hbytes⟩ := parseFields_ok hpacket
  have hge := wireSize_ge s.kind
  have hlong : wireSize s.kind ≤ b.length := by
    rw [← hb, List.length_take] at hlen
    omega
  have hfront : b.take 89 = packet.take 89 := by
    rw [← hb, List.take_take]
    congr 1
    omega
  have hsame : packet.take (wireSize s.kind) = b.take (wireSize s.kind) := by
    rw [← hb, List.take_take, min_self]
  apply Shred.parse_eq_ok_iff.mpr
  rw [parseFields_congr hpacket hfront hlong, ← hsame, ← hbytes]

/-- The datagrams `Shred::parse` accepts, and what it makes of each. -/
theorem accepted_iff_written {b : Bytes} {s : Shred} : Shred.parse b = .ok s ↔
    (∃ (p : DataPacket) (resigned : Bool) (c : ℕ) (h : p.Valid resigned c), b.take 1203 = p.packet ∧ s = p.shred h) ∨
    (∃ (p : CodePacket) (resigned : Bool) (c : ℕ) (h : p.Valid resigned c), b.take 1228 = p.packet ∧ s = p.shred h) := by
  constructor
  · intro hparse
    have hfields := Shred.parse_eq_ok_iff.mp hparse
    have hread := readAs hfields
    have hlong : 83 ≤ s.bytes.length := by
      have hge := s.bytes_length_ge
      omega
    have hself : Shred.parse s.bytes = .ok s := Shred.parse_eq_ok_iff.mpr s.parsed
    cases hk : s.kind with
    | data =>
      have hvalid := DataPacket.read_valid hread s.valid hk hlong
      have hback := DataPacket.packet_read hlong (by rw [s.bytes_length, hk]; rfl)
      have hb := hread.bytes
      rw [hk] at hb
      refine .inl ⟨_, _, _, hvalid, ?_, ?_⟩
      · rw [hback, hb]
        rfl
      · have hwritten := DataPacket.parse_packet _ hvalid
        rw [hback, hself] at hwritten
        exact Except.ok.inj hwritten
    | code =>
      have hhead := hread.header
      rw [hk] at hhead
      obtain ⟨hd, hc, _⟩ := parseCodeHeader_checks hhead
      have hvalid := CodePacket.read_valid hread s.valid hk hlong
      have hback := CodePacket.packet_read hlong (by rw [s.bytes_length, hk]; rfl) hd hc
      have hb := hread.bytes
      rw [hk] at hb
      refine .inr ⟨_, _, _, hvalid, ?_, ?_⟩
      · rw [hback, hb]
        rfl
      · have hwritten := CodePacket.parse_packet _ hvalid
        rw [hback, hself] at hwritten
        exact Except.ok.inj hwritten
  · rintro (⟨p, resigned, c, h, hb, rfl⟩ | ⟨p, resigned, c, h, hb, rfl⟩)
    · exact Shred.parse_front (p.parse_packet h) hb
    · exact Shred.parse_front (p.parse_packet h) hb

end Deshred
