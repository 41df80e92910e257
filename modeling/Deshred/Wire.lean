import Deshred.Shred

/-!
# Writing shreds

The datagram layout from the writing side (the header of shred.rs): a signature, the
variant byte, the common and the kind's own headers, then the rest. Parsing reads
back what was written.
-/

namespace Deshred

structure CommonHeader where
  signature : Signature
  variant : UInt8
  slot : ℕ
  index : ℕ
  version : ℕ
  fecSetIndex : ℕ

namespace CommonHeader

def bytes (h : CommonHeader) : Bytes :=
  h.signature.val ++ [h.variant] ++ leBytes 8 h.slot ++ leBytes 4 h.index ++ leBytes 2 h.version ++
    leBytes 4 h.fecSetIndex

structure Fits (h : CommonHeader) : Prop where
  slot : h.slot < 2 ^ 64
  index : h.index < 32768
  version : h.version < 2 ^ 16
  fecSetIndex : h.fecSetIndex < 2 ^ 32

theorem bytes_length (h : CommonHeader) : h.bytes.length = 83 := by
  have hs := h.signature.property
  simp only [bytes, List.length_append, hs, leBytes_length, List.length_singleton]

theorem variant_getElem (h : CommonHeader) (rest : Bytes) : (h.bytes ++ rest)[variantOffset]? = some h.variant := by
  have hs := h.signature.property
  have hsplit : h.bytes ++ rest = h.signature.val ++ h.variant :: (leBytes 8 h.slot ++ leBytes 4 h.index ++
      leBytes 2 h.version ++ leBytes 4 h.fecSetIndex ++ rest) := by
    simp [bytes]
  have hoff : variantOffset = h.signature.val.length := hs.symm
  rw [hsplit, hoff, List.getElem?_append_right le_rfl]
  simp

theorem slot_at (h : CommonHeader) (hf : h.Fits) (rest : Bytes) : u64At (h.bytes ++ rest) slotOffset = h.slot := by
  have hs := h.signature.property
  have hsplit : h.bytes ++ rest = (h.signature.val ++ [h.variant]) ++ leBytes 8 h.slot ++
      (leBytes 4 h.index ++ leBytes 2 h.version ++ leBytes 4 h.fecSetIndex ++ rest) := by
    simp [bytes]
  have hoff : slotOffset = (h.signature.val ++ [h.variant]).length := by simp [slotOffset, hs]
  rw [u64At, hsplit, hoff, leAt_leBytes _ _ (by have := hf.slot; omega)]

theorem index_at (h : CommonHeader) (hf : h.Fits) (rest : Bytes) :
    u32At (h.bytes ++ rest) indexOffset = h.index := by
  have hs := h.signature.property
  have hsplit : h.bytes ++ rest = (h.signature.val ++ [h.variant] ++ leBytes 8 h.slot) ++ leBytes 4 h.index ++
      (leBytes 2 h.version ++ leBytes 4 h.fecSetIndex ++ rest) := by
    simp [bytes]
  have hoff : indexOffset = (h.signature.val ++ [h.variant] ++ leBytes 8 h.slot).length := by
    simp [indexOffset, hs]
  rw [u32At, hsplit, hoff, leAt_leBytes _ _ (by have := hf.index; omega)]

theorem version_at (h : CommonHeader) (hf : h.Fits) (rest : Bytes) :
    u16At (h.bytes ++ rest) versionOffset = h.version := by
  have hs := h.signature.property
  have hsplit : h.bytes ++ rest = (h.signature.val ++ [h.variant] ++ leBytes 8 h.slot ++ leBytes 4 h.index) ++
      leBytes 2 h.version ++ (leBytes 4 h.fecSetIndex ++ rest) := by
    simp [bytes]
  have hoff : versionOffset = (h.signature.val ++ [h.variant] ++ leBytes 8 h.slot ++ leBytes 4 h.index).length := by
    simp [versionOffset, hs]
  rw [u16At, hsplit, hoff, leAt_leBytes _ _ (by have := hf.version; omega)]

theorem fecSetIndex_at (h : CommonHeader) (hf : h.Fits) (rest : Bytes) :
    u32At (h.bytes ++ rest) fecSetIndexOffset = h.fecSetIndex := by
  have hs := h.signature.property
  have hsplit : h.bytes ++ rest = (h.signature.val ++ [h.variant] ++ leBytes 8 h.slot ++ leBytes 4 h.index ++
      leBytes 2 h.version) ++ leBytes 4 h.fecSetIndex ++ rest := by
    simp [bytes]
  have hoff : fecSetIndexOffset = (h.signature.val ++ [h.variant] ++ leBytes 8 h.slot ++ leBytes 4 h.index ++
      leBytes 2 h.version).length := by
    simp [fecSetIndexOffset, hs]
  rw [u32At, hsplit, hoff, leAt_leBytes _ _ (by have := hf.fecSetIndex; omega)]

end CommonHeader

theorem parseFields_written {h : CommonHeader} {rest : Bytes} {kind : ShredKind} {resigned : Bool}
    {c : ℕ} {header : Header} (hf : h.Fits) (hk : variantKind h.variant = some (kind, resigned))
    (hlen : (h.bytes ++ rest).length = wireSize kind)
    (hc : capacity kind (h.variant &&& 0x0F).toNat resigned = some c)
    (hh : parseHeader kind (h.bytes ++ rest) h.slot h.index h.fecSetIndex c = .ok header) :
    parseFields (h.bytes ++ rest) = .ok ⟨h.bytes ++ rest, kind, resigned, (h.variant &&& 0x0F).toNat,
      h.slot, h.index, h.version, h.fecSetIndex, c, header⟩ := by
  have htake : (h.bytes ++ rest).take (wireSize kind) = h.bytes ++ rest := List.take_of_length_le hlen.le
  have hidx := hf.index
  simp only [parseFields, h.variant_getElem, hk, htake, hc, h.slot_at hf, h.index_at hf, h.version_at hf,
    h.fecSetIndex_at hf, hh]
  rw [if_neg (by omega), if_neg (by simp only [maxShredsPerSlot]; omega)]

/-! ### Data shreds -/

structure DataPacket extends CommonHeader where
  parentOffset : ℕ
  flags : UInt8
  size : ℕ
  body : Bytes

namespace DataPacket

def tail (p : DataPacket) : Bytes := leBytes 2 p.parentOffset ++ [p.flags] ++ leBytes 2 p.size ++ p.body

def packet (p : DataPacket) : Bytes := p.toCommonHeader.bytes ++ p.tail

/- What the parser asks of a data shred. -/
structure Valid (p : DataPacket) (resigned : Bool) (c : ℕ) : Prop extends p.toCommonHeader.Fits where
  kind : variantKind p.variant = some (.data, resigned)
  room : capacity .data (p.variant &&& 0x0F).toNat resigned = some c
  body : p.body.length = 1115
  aligned : p.fecSetIndex % 32 = 0
  inSet : p.fecSetIndex ≤ p.index ∧ p.index < p.fecSetIndex + 32
  parent : p.parentOffset < 2 ^ 16 ∧ p.parentOffset ≤ p.slot ∧ (p.parentOffset = 0 → p.slot = 0)
  flags : (p.flags &&& 0x80 ≠ 0 → p.flags &&& flagDataComplete ≠ 0) ∧
    (p.flags &&& flagLastInSlot = flagLastInSlot → (p.index + 1) % 32 = 0)
  size : 88 ≤ p.size ∧ p.size ≤ 88 + c

theorem packet_length {p : DataPacket} {resigned : Bool} {c : ℕ} (h : p.Valid resigned c) :
    p.packet.length = 1203 := by
  simp only [packet, tail, List.length_append, CommonHeader.bytes_length, leBytes_length, h.body,
    List.length_singleton]

theorem parsed {p : DataPacket} {resigned : Bool} {c : ℕ} (h : p.Valid resigned c) :
    parseFields p.packet = .ok ⟨p.packet, .data, resigned, (p.variant &&& 0x0F).toNat, p.slot, p.index,
      p.version, p.fecSetIndex, c, .data p.parentOffset p.flags p.size⟩ := by
  have hb := p.toCommonHeader.bytes_length
  have hlen : (p.toCommonHeader.bytes ++ p.tail).length = wireSize .data := packet_length h
  have hroom := capacity_layout h.room
  have hparent : u16At p.packet parentOffsetOffset = p.parentOffset := by
    have hsplit : p.packet = p.toCommonHeader.bytes ++ leBytes 2 p.parentOffset ++
        ([p.flags] ++ leBytes 2 p.size ++ p.body) := by
      simp [packet, tail]
    have hoff : parentOffsetOffset = p.toCommonHeader.bytes.length := hb.symm
    rw [u16At, hsplit, hoff, leAt_leBytes _ _ (by have := h.parent.1; omega)]
  have hflags : u8At p.packet flagsOffset = p.flags := by
    have hsplit : p.packet = (p.toCommonHeader.bytes ++ leBytes 2 p.parentOffset) ++
        p.flags :: (leBytes 2 p.size ++ p.body) := by
      simp [packet, tail]
    have hoff : flagsOffset = (p.toCommonHeader.bytes ++ leBytes 2 p.parentOffset).length := by
      simp [flagsOffset, hb]
    rw [u8At, hsplit, hoff, List.getD_eq_getElem?_getD, List.getElem?_append_right le_rfl]
    simp
  have hsize : u16At p.packet sizeOffset = p.size := by
    have hsplit : p.packet = (p.toCommonHeader.bytes ++ leBytes 2 p.parentOffset ++ [p.flags]) ++
        leBytes 2 p.size ++ p.body := by
      simp [packet, tail]
    have hoff : sizeOffset = (p.toCommonHeader.bytes ++ leBytes 2 p.parentOffset ++ [p.flags]).length := by
      simp [sizeOffset, hb]
    have hsz := h.size
    have hk : headersSize .data + 32 ≤ wireSize .data := by decide
    simp only [headersSize, wireSize, dataShredSize, dataHeadersSize] at hroom
    rw [u16At, hsplit, hoff, leAt_leBytes _ _ (by omega)]
  apply parseFields_written h.toFits h.kind hlen h.room
  show parseDataHeader p.packet p.slot p.index p.fecSetIndex c = _
  have hset := h.inSet
  have halign := h.aligned
  have hpar := h.parent
  have hsz := h.size
  simp only [parseDataHeader, hparent, hflags, hsize]
  rw [if_neg, if_neg, if_neg, if_neg]
  · simp only [dataHeadersSize]
    omega
  · intro h
    rcases h with ⟨h80, h40⟩ | ⟨hlast, hmod⟩
    · exact h.flags.1 h80 h40
    · exact hmod (h.flags.2 hlast)
  · intro h
    rcases h with ⟨h0, hs⟩ | hlt
    · exact hs (hpar.2.2 h0)
    · omega
  · simp only [dataShredsPerFecSet]
    omega

/-- The shred a well-formed packet is. -/
def shred (p : DataPacket) {resigned : Bool} {c : ℕ} (h : p.Valid resigned c) : Shred where
  bytes := p.packet
  kind := .data
  resigned := resigned
  proofSize := (p.variant &&& 0x0F).toNat
  slot := p.slot
  index := p.index
  version := p.version
  fecSetIndex := p.fecSetIndex
  capacity := c
  header := .data p.parentOffset p.flags p.size
  parsed := parsed h

theorem parse_packet (p : DataPacket) {resigned : Bool} {c : ℕ} (h : p.Valid resigned c) :
    Shred.parse p.packet = .ok (p.shred h) := Shred.parse_eq_ok_iff.mpr (parsed h)

theorem shred_signature (p : DataPacket) {resigned : Bool} {c : ℕ} (h : p.Valid resigned c) :
    (p.shred h).signature = p.signature := by
  have hsplit : ∃ rest, p.packet = p.signature.val ++ rest := ⟨_, by simp [packet, CommonHeader.bytes]; rfl⟩
  obtain ⟨rest, hrest⟩ := hsplit
  have hbytes : (p.shred h).bytes = p.signature.val ++ rest := hrest
  apply Subtype.ext
  simp only [Shred.signature, slice, signatureSize, List.drop_zero, Nat.sub_zero]
  rw [hbytes]
  exact List.take_left' p.signature.property

end DataPacket

/-! ### Code shreds -/

structure CodePacket extends CommonHeader where
  position : ℕ
  body : Bytes

namespace CodePacket

def tail (p : CodePacket) : Bytes := leBytes 2 32 ++ leBytes 2 32 ++ leBytes 2 p.position ++ p.body

def packet (p : CodePacket) : Bytes := p.toCommonHeader.bytes ++ p.tail

/- What the parser asks of a code shred. -/
structure Valid (p : CodePacket) (resigned : Bool) (c : ℕ) : Prop extends p.toCommonHeader.Fits where
  kind : variantKind p.variant = some (.code, resigned)
  room : capacity .code (p.variant &&& 0x0F).toNat resigned = some c
  body : p.body.length = 1139
  aligned : p.fecSetIndex % 32 = 0
  position : p.position < 32 ∧ p.position ≤ p.index

theorem packet_length {p : CodePacket} {resigned : Bool} {c : ℕ} (h : p.Valid resigned c) :
    p.packet.length = 1228 := by
  simp only [packet, tail, List.length_append, CommonHeader.bytes_length, leBytes_length, h.body]

theorem parsed {p : CodePacket} {resigned : Bool} {c : ℕ} (h : p.Valid resigned c) :
    parseFields p.packet = .ok ⟨p.packet, .code, resigned, (p.variant &&& 0x0F).toNat, p.slot, p.index,
      p.version, p.fecSetIndex, c, .code p.position⟩ := by
  have hb := p.toCommonHeader.bytes_length
  have hlen : (p.toCommonHeader.bytes ++ p.tail).length = wireSize .code := packet_length h
  have hdata : u16At p.packet numDataOffset = 32 := by
    have hsplit : p.packet = p.toCommonHeader.bytes ++ leBytes 2 32 ++
        (leBytes 2 32 ++ leBytes 2 p.position ++ p.body) := by
      simp [packet, tail]
    have hoff : numDataOffset = p.toCommonHeader.bytes.length := hb.symm
    rw [u16At, hsplit, hoff, leAt_leBytes _ _ (by decide)]
  have hcode : u16At p.packet numCodeOffset = 32 := by
    have hsplit : p.packet = (p.toCommonHeader.bytes ++ leBytes 2 32) ++ leBytes 2 32 ++
        (leBytes 2 p.position ++ p.body) := by
      simp [packet, tail]
    have hoff : numCodeOffset = (p.toCommonHeader.bytes ++ leBytes 2 32).length := by
      simp [numCodeOffset, hb]
    rw [u16At, hsplit, hoff, leAt_leBytes _ _ (by decide)]
  have hpos : u16At p.packet positionOffset = p.position := by
    have hsplit : p.packet = (p.toCommonHeader.bytes ++ leBytes 2 32 ++ leBytes 2 32) ++
        leBytes 2 p.position ++ p.body := by
      simp [packet, tail]
    have hoff : positionOffset = (p.toCommonHeader.bytes ++ leBytes 2 32 ++ leBytes 2 32).length := by
      simp [positionOffset, hb]
    rw [u16At, hsplit, hoff, leAt_leBytes _ _ (by have := h.position; omega)]
  apply parseFields_written h.toFits h.kind hlen h.room
  show parseCodeHeader p.packet p.index p.fecSetIndex = _
  have halign := h.aligned
  have hp := h.position
  simp only [parseCodeHeader, hdata, hcode, hpos]
  rw [if_neg]
  simp only [dataShredsPerFecSet, codeShredsPerFecSet]
  omega

/-- The shred a well-formed packet is. -/
def shred (p : CodePacket) {resigned : Bool} {c : ℕ} (h : p.Valid resigned c) : Shred where
  bytes := p.packet
  kind := .code
  resigned := resigned
  proofSize := (p.variant &&& 0x0F).toNat
  slot := p.slot
  index := p.index
  version := p.version
  fecSetIndex := p.fecSetIndex
  capacity := c
  header := .code p.position
  parsed := parsed h

theorem parse_packet (p : CodePacket) {resigned : Bool} {c : ℕ} (h : p.Valid resigned c) :
    Shred.parse p.packet = .ok (p.shred h) := Shred.parse_eq_ok_iff.mpr (parsed h)

end CodePacket

/-! ### The cheapest shreds a sender can make -/

/- Zero signature and body, no proof. -/
def DataPacket.blank (slot index : ℕ) (flags : UInt8) : DataPacket where
  signature := ⟨List.replicate 64 0, Signature.zero_length⟩
  variant := 0x90
  slot := slot
  index := index
  version := 0
  fecSetIndex := index - index % 32
  parentOffset := min slot 1
  flags := flags
  size := 88
  body := List.replicate 1115 0

theorem DataPacket.blank_valid {slot index : ℕ} {flags : UInt8} (hs : slot < 2 ^ 64) (hi : index < 32768)
    (hf : flags = 0 ∨ flags = flagDataComplete) : (DataPacket.blank slot index flags).Valid false 1083 where
  slot := hs
  index := hi
  version := by
    show 0 < 2 ^ 16
    decide
  fecSetIndex := by
    simp only [blank]
    omega
  kind := by
    show variantKind 0x90 = _
    decide
  room := by
    show Deshred.capacity .data ((0x90 : UInt8) &&& 0x0F).toNat false = _
    decide
  body := List.length_replicate ..
  aligned := by
    simp only [blank]
    omega
  inSet := by
    simp only [blank]
    omega
  parent := by
    simp only [blank]
    omega
  flags := by
    simp only [blank]
    rcases hf with rfl | rfl
    · exact ⟨by decide, fun h => absurd h (by decide)⟩
    · exact ⟨by decide, fun h => absurd h (by decide)⟩
  size := by
    simp only [blank]
    omega

def CodePacket.blank (slot fecSetIndex : ℕ) : CodePacket where
  signature := ⟨List.replicate 64 0, Signature.zero_length⟩
  variant := 0x60
  slot := slot
  index := 0
  version := 0
  fecSetIndex := fecSetIndex
  position := 0
  body := List.replicate 1139 0

theorem CodePacket.blank_valid {slot fecSetIndex : ℕ} (hs : slot < 2 ^ 64) (hf : fecSetIndex < 2 ^ 32)
    (ha : fecSetIndex % 32 = 0) : (CodePacket.blank slot fecSetIndex).Valid false 1107 where
  slot := hs
  index := by
    show 0 < 32768
    decide
  version := by
    show 0 < 2 ^ 16
    decide
  fecSetIndex := hf
  kind := by
    show variantKind 0x60 = _
    decide
  room := by
    show Deshred.capacity .code ((0x60 : UInt8) &&& 0x0F).toNat false = _
    decide
  body := List.length_replicate ..
  aligned := ha
  position := by
    show 0 < 32 ∧ 0 ≤ 0
    decide

end Deshred
