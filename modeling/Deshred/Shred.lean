import Deshred.Merkle

/-!
# Shred wire format (shred.rs)

`parseFields` is `Shred::parse`: it truncates the datagram to the wire size of its
variant and checks every header field. A `Shred` is a record that `parseFields`
returned, as in the source, where nothing else builds one; the slices its
accessors take are in bounds by that fact.
-/

namespace Deshred

def dataShredSize : ℕ := 1203
def codeShredSize : ℕ := 1228
def dataShredsPerFecSet : ℕ := 32
def codeShredsPerFecSet : ℕ := 32
def maxShredsPerSlot : ℕ := 32768
def signatureSize : ℕ := 64
def dataHeadersSize : ℕ := 88
def codeHeadersSize : ℕ := 89
def merkleRootSize : ℕ := 32

def variantOffset : ℕ := 64
def slotOffset : ℕ := 65
def indexOffset : ℕ := 73
def versionOffset : ℕ := 77
def fecSetIndexOffset : ℕ := 79
def parentOffsetOffset : ℕ := 83
def flagsOffset : ℕ := 85
def sizeOffset : ℕ := 86
def numDataOffset : ℕ := 83
def numCodeOffset : ℕ := 85
def positionOffset : ℕ := 87

def flagDataComplete : UInt8 := 0b01000000
def flagLastInSlot : UInt8 := 0b11000000

inductive ShredKind where
  | data
  | code
  deriving DecidableEq

inductive ShredError where
  | tooShort (len : ℕ)
  | invalidVariant (variant : UInt8)
  | invalidProofSize (proofSize : ℕ)
  | indexOutOfRange (index : ℕ)
  | fecSetMisaligned (index fecSetIndex : ℕ)
  | invalidParentOffset (slot parentOffset : ℕ)
  | invalidFlags (flags : UInt8)
  | invalidSize (size : ℕ)
  | invalidErasureConfig (numData numCode position : ℕ)
  deriving DecidableEq

inductive Header where
  | data (parentOffset : ℕ) (flags : UInt8) (size : ℕ)
  | code (position : ℕ)
  deriving DecidableEq

/-- The fields of `Shred`. -/
structure ShredFields where
  bytes : Bytes
  kind : ShredKind
  resigned : Bool
  proofSize : ℕ
  slot : ℕ
  index : ℕ
  version : ℕ
  fecSetIndex : ℕ
  capacity : ℕ
  header : Header
  deriving DecidableEq

def wireSize : ShredKind → ℕ
  | .data => dataShredSize
  | .code => codeShredSize

def headersSize : ShredKind → ℕ
  | .data => dataHeadersSize
  | .code => codeHeadersSize

/-- Entry bytes (data) or coded shard (code) a variant can hold. -/
def capacity (kind : ShredKind) (proofSize : ℕ) (resigned : Bool) : Option ℕ :=
  let overhead := headersSize kind + merkleRootSize + proofSize * Merkle.proofEntrySize +
    if resigned then signatureSize else 0
  if overhead ≤ wireSize kind then some (wireSize kind - overhead) else none

/-- The high nibble of the variant byte. -/
def variantKind (variant : UInt8) : Option (ShredKind × Bool) :=
  if variant &&& 0xF0 = 0x90 then some (.data, false)
  else if variant &&& 0xF0 = 0xB0 then some (.data, true)
  else if variant &&& 0xF0 = 0x60 then some (.code, false)
  else if variant &&& 0xF0 = 0x70 then some (.code, true)
  else none

def parseDataHeader (bytes : Bytes) (slot index fecSetIndex capacity : ℕ) : Except ShredError Header :=
  if fecSetIndex % dataShredsPerFecSet ≠ 0 ∨ index < fecSetIndex ∨
      dataShredsPerFecSet ≤ index - fecSetIndex then
    .error (.fecSetMisaligned index fecSetIndex)
  else
    let parentOffset := u16At bytes parentOffsetOffset
    if (parentOffset = 0 ∧ slot ≠ 0) ∨ slot < parentOffset then
      .error (.invalidParentOffset slot parentOffset)
    else
      let flags := u8At bytes flagsOffset
      let lastInSlot := flags &&& flagLastInSlot = flagLastInSlot
      if (flags &&& 0x80 ≠ 0 ∧ flags &&& flagDataComplete = 0) ∨
          (lastInSlot ∧ (index + 1) % dataShredsPerFecSet ≠ 0) then
        .error (.invalidFlags flags)
      else
        let size := u16At bytes sizeOffset
        if size < dataHeadersSize ∨ dataHeadersSize + capacity < size then .error (.invalidSize size)
        else .ok (.data parentOffset flags size)

/- Code shreds have their own index space but share `fec_set_index` with the data
shreds they protect. -/
def parseCodeHeader (bytes : Bytes) (index fecSetIndex : ℕ) : Except ShredError Header :=
  let numData := u16At bytes numDataOffset
  let numCode := u16At bytes numCodeOffset
  let position := u16At bytes positionOffset
  if numData ≠ dataShredsPerFecSet ∨ numCode ≠ codeShredsPerFecSet ∨ codeShredsPerFecSet ≤ position ∨
      index < position ∨ fecSetIndex % dataShredsPerFecSet ≠ 0 then
    .error (.invalidErasureConfig numData numCode position)
  else .ok (.code position)

def parseHeader (kind : ShredKind) (bytes : Bytes) (slot index fecSetIndex capacity : ℕ) :
    Except ShredError Header :=
  match kind with
  | .data => parseDataHeader bytes slot index fecSetIndex capacity
  | .code => parseCodeHeader bytes index fecSetIndex

/- The datagram is at least as long as its wire size when its header is read, so
no read of `u8At` .. `u64At` falls past its end. -/
def parseFields (packet : Bytes) : Except ShredError ShredFields :=
  match packet[variantOffset]? with
  | none => .error (.tooShort packet.length)
  | some variant =>
    match variantKind variant with
    | none => .error (.invalidVariant variant)
    | some (kind, resigned) =>
      let proofSize := (variant &&& 0x0F).toNat
      if packet.length < wireSize kind then .error (.tooShort packet.length)
      else
        let bytes := packet.take (wireSize kind)
        match capacity kind proofSize resigned with
        | none => .error (.invalidProofSize proofSize)
        | some capacity =>
          let slot := u64At bytes slotOffset
          let index := u32At bytes indexOffset
          let version := u16At bytes versionOffset
          let fecSetIndex := u32At bytes fecSetIndexOffset
          if maxShredsPerSlot ≤ index then .error (.indexOutOfRange index)
          else
            match parseHeader kind bytes slot index fecSetIndex capacity with
            | .error e => .error e
            | .ok header =>
              .ok ⟨bytes, kind, resigned, proofSize, slot, index, version, fecSetIndex, capacity, header⟩

/-! ### What parsing guarantees -/

def ShredFields.HeaderValid (f : ShredFields) : Prop :=
  match f.kind, f.header with
  | .data, .data parentOffset flags size =>
    f.fecSetIndex ≤ f.index ∧ f.index < f.fecSetIndex + 32 ∧ parentOffset ≤ f.slot ∧
      (flags &&& flagLastInSlot = flagLastInSlot → (f.index + 1) % 32 = 0) ∧
      88 ≤ size ∧ size ≤ 88 + f.capacity
  | .code, .code position => position < 32 ∧ position ≤ f.index
  | _, _ => False

structure ShredFields.Valid (f : ShredFields) : Prop where
  length : f.bytes.length = wireSize f.kind
  layout : headersSize f.kind + 32 + 20 * f.proofSize + (if f.resigned then 64 else 0) + f.capacity =
    wireSize f.kind
  proofSize : f.proofSize ≤ 15
  slot : f.slot < 2 ^ 64
  version : f.version < 2 ^ 16
  index : f.index < 32768
  fecSetIndex : f.fecSetIndex < 2 ^ 32
  aligned : f.fecSetIndex % 32 = 0
  header : f.HeaderValid

theorem capacity_layout {kind : ShredKind} {proofSize c : ℕ} {resigned : Bool}
    (h : capacity kind proofSize resigned = some c) :
    headersSize kind + 32 + 20 * proofSize + (if resigned then 64 else 0) + c = wireSize kind := by
  cases resigned <;>
    simp only [capacity, merkleRootSize, Merkle.proofEntrySize, signatureSize, ↓reduceIte,
      Bool.false_eq_true, Option.ite_none_right_eq_some, Option.some.injEq] at h ⊢ <;> omega

theorem wireSize_ge (kind : ShredKind) : 1203 ≤ wireSize kind := by
  cases kind <;> decide

theorem parseDataHeader_ok {bytes : Bytes} {slot index fsi c : ℕ} {header : Header}
    (h : parseDataHeader bytes slot index fsi c = .ok header) :
    fsi % 32 = 0 ∧ fsi ≤ index ∧ index < fsi + 32 ∧ ∃ parentOffset flags size,
      header = .data parentOffset flags size ∧ parentOffset ≤ slot ∧
      (flags &&& flagLastInSlot = flagLastInSlot → (index + 1) % 32 = 0) ∧ 88 ≤ size ∧ size ≤ 88 + c := by
  unfold parseDataHeader at h
  dsimp only at h
  split at h
  · contradiction
  · rename_i halign
    split at h
    · contradiction
    · rename_i hparent
      split at h
      · contradiction
      · rename_i hflags
        split at h
        · contradiction
        · rename_i hsize
          cases h
          simp only [dataShredsPerFecSet, dataHeadersSize] at halign hflags hsize
          refine ⟨by omega, by omega, by omega, _, _, _, rfl, by omega, ?_, by omega, by omega⟩
          intro hlast
          by_contra hne
          exact hflags (.inr ⟨hlast, hne⟩)

theorem parseCodeHeader_ok {bytes : Bytes} {index fsi : ℕ} {header : Header}
    (h : parseCodeHeader bytes index fsi = .ok header) :
    fsi % 32 = 0 ∧ ∃ position, header = .code position ∧ position < 32 ∧ position ≤ index := by
  unfold parseCodeHeader at h
  dsimp only at h
  split at h
  · contradiction
  · rename_i hconfig
    cases h
    simp only [dataShredsPerFecSet, codeShredsPerFecSet] at hconfig
    exact ⟨by omega, _, rfl, by omega, by omega⟩

/-- Every field of an accepted datagram, as its bytes have it, within its bounds. -/
theorem parseFields_ok {packet : Bytes} {f : ShredFields} (h : parseFields packet = .ok f) :
    f.Valid ∧ wireSize f.kind ≤ packet.length ∧ f.bytes = packet.take (wireSize f.kind) := by
  unfold parseFields at h
  dsimp only at h
  split at h
  · contradiction
  · rename_i variant hvariant
    split at h
    · contradiction
    · rename_i kind resigned hkind
      split at h
      · contradiction
      · rename_i hlen
        split at h
        · contradiction
        · rename_i c hcap
          split at h
          · contradiction
          · rename_i hindex
            split at h
            · contradiction
            · rename_i header hheader
              cases h
              have hproof : (variant &&& 0x0F).toNat ≤ 15 := by
                rw [UInt8.toNat_and]
                exact Nat.and_le_right
              have hslot : u64At (packet.take (wireSize kind)) slotOffset < 2 ^ 64 := leAt_lt _ _ 8
              have hver : u16At (packet.take (wireSize kind)) versionOffset < 2 ^ 16 := leAt_lt _ _ 2
              have hfsi : u32At (packet.take (wireSize kind)) fecSetIndexOffset < 2 ^ 32 := leAt_lt _ _ 4
              simp only [maxShredsPerSlot, not_le] at hindex
              refine ⟨⟨?_, capacity_layout hcap, hproof, hslot, hver, hindex, hfsi, ?_, ?_⟩,
                Nat.le_of_not_lt hlen, rfl⟩
              · simp only [List.length_take]
                omega
              · cases kind with
                | data => exact (parseDataHeader_ok hheader).1
                | code => exact (parseCodeHeader_ok hheader).1
              · cases kind with
                | data =>
                  obtain ⟨_, hle, hlt, po, flags, size, rfl, hpo, hlast, hs⟩ := parseDataHeader_ok hheader
                  exact ⟨hle, hlt, hpo, hlast, hs⟩
                | code =>
                  obtain ⟨_, position, rfl, hp⟩ := parseCodeHeader_ok hheader
                  exact hp

/-- Parsing reads the first 89 bytes and the length, nothing else. -/
theorem parseFields_congr {a b : Bytes} {f : ShredFields} (h : parseFields a = .ok f)
    (heq : b.take 89 = a.take 89) (hlen : wireSize f.kind ≤ b.length) :
    parseFields b = .ok { f with bytes := b.take (wireSize f.kind) } := by
  have hv : b[variantOffset]? = a[variantOffset]? := by
    have hcut : ∀ bytes : Bytes, bytes[variantOffset]? = (bytes.take 89)[variantOffset]? := by
      intro bytes
      simp [variantOffset]
    rw [hcut b, hcut a, heq]
  have hnum : ∀ (kind : ShredKind) (off n : ℕ), off + n ≤ 89 →
      leAt (b.take (wireSize kind)) off n = leAt (a.take (wireSize kind)) off n := by
    intro kind off n hn
    have hk := wireSize_ge kind
    rw [leAt_take b (by omega), leAt_take a (by omega), ← leAt_take b hn, ← leAt_take a hn, heq]
  have hbyte : ∀ (kind : ShredKind) (off : ℕ), off < 89 →
      u8At (b.take (wireSize kind)) off = u8At (a.take (wireSize kind)) off := by
    intro kind off hn
    have hk := wireSize_ge kind
    rw [u8At_take b (by omega), u8At_take a (by omega), ← u8At_take b hn, ← u8At_take a hn, heq]
  have hhead : ∀ kind slot index fsi c, parseHeader kind (b.take (wireSize kind)) slot index fsi c =
      parseHeader kind (a.take (wireSize kind)) slot index fsi c := by
    intro kind slot index fsi c
    have h83 := hnum kind 83 2 (by omega)
    have h85 := hnum kind 85 2 (by omega)
    have h86 := hnum kind 86 2 (by omega)
    have h87 := hnum kind 87 2 (by omega)
    cases kind with
    | data =>
      have hflags := hbyte .data 85 (by omega)
      unfold parseHeader parseDataHeader u16At parentOffsetOffset sizeOffset flagsOffset
      rw [h83, h86, hflags]
    | code =>
      unfold parseHeader parseCodeHeader u16At numDataOffset numCodeOffset positionOffset
      rw [h83, h85, h87]
  simp only [parseFields, hv] at h ⊢
  split at h
  · contradiction
  · split at h
    · contradiction
    · rename_i kind resigned hkind
      split at h
      · contradiction
      · split at h
        · contradiction
        · rename_i c hcap
          split at h
          · contradiction
          · rename_i hindex
            split at h
            · contradiction
            · rename_i header hheader
              cases h
              simp only [u64At, u32At, u16At, slotOffset, indexOffset, versionOffset, fecSetIndexOffset] at *
              simp only [hhead, hnum kind 65 8 (by omega), hnum kind 73 4 (by omega),
                hnum kind 77 2 (by omega), hnum kind 79 4 (by omega), hheader, if_neg hindex,
                if_neg (show ¬ b.length < wireSize kind by omega)]

theorem parseFields_reparse {packet : Bytes} {f : ShredFields} (h : parseFields packet = .ok f) :
    parseFields f.bytes = .ok f := by
  obtain ⟨hvalid, hlen, hbytes⟩ := parseFields_ok h
  have hk := wireSize_ge f.kind
  have heq : f.bytes.take 89 = packet.take 89 := by
    rw [hbytes, List.take_take]
    congr 1
    omega
  have hre := parseFields_congr h heq hvalid.length.ge
  have htake : f.bytes.take (wireSize f.kind) = f.bytes := List.take_of_length_le hvalid.length.le
  rw [hre, htake]

/-! ### Parsed shreds -/

/-- A validated shred. -/
structure Shred extends ShredFields where
  parsed : parseFields bytes = .ok toShredFields
  deriving DecidableEq

/- The literals of `Fin 32`. -/
instance Position.neZero : NeZero 32 := ⟨by decide⟩

theorem Position.mod_lt (index : ℕ) : index % 32 < 32 := Nat.mod_lt _ (by decide)

/- Where a shred sits in the two arrays of its FEC set. -/
inductive Position where
  | data (p : Fin 32)
  | code (p : Fin 32)
  deriving DecidableEq

abbrev Signature := {b : Bytes // b.length = 64}

theorem Signature.zero_length : (List.replicate 64 (0 : UInt8)).length = 64 := List.length_replicate

namespace Shred

def parse (packet : Bytes) : Except ShredError Shred :=
  match h : parseFields packet with
  | .error e => .error e
  | .ok f => .ok ⟨f, parseFields_reparse h⟩

variable (s : Shred)

theorem valid : s.toShredFields.Valid := (parseFields_ok s.parsed).1

theorem bytes_length : s.bytes.length = wireSize s.kind := s.valid.length

/-- The arithmetic every offset below rests on. -/
theorem layout : headersSize s.kind + 32 + 20 * s.proofSize + (if s.resigned then 64 else 0) +
    s.capacity = s.bytes.length := by
  rw [s.bytes_length]
  exact s.valid.layout

theorem bytes_length_ge : 1203 ≤ s.bytes.length := by
  rw [s.bytes_length]
  exact wireSize_ge s.kind

theorem kind_of_header : s.kind = match s.header with
    | .data .. => .data
    | .code _ => .code := by
  have h := s.valid.header
  unfold ShredFields.HeaderValid at h
  split at h <;> simp_all

theorem data_header {parentOffset : ℕ} {flags : UInt8} {size : ℕ}
    (h : s.header = .data parentOffset flags size) : s.kind = .data ∧ s.fecSetIndex ≤ s.index ∧
      s.index < s.fecSetIndex + 32 ∧ parentOffset ≤ s.slot ∧ 88 ≤ size ∧ size ≤ 88 + s.capacity := by
  have hv := s.valid.header
  have hk : s.kind = .data := by rw [s.kind_of_header, h]
  simp only [ShredFields.HeaderValid, hk, h] at hv
  exact ⟨hk, hv.1, hv.2.1, hv.2.2.1, hv.2.2.2.2⟩

theorem code_header {position : ℕ} (h : s.header = .code position) :
    s.kind = .code ∧ position < 32 ∧ position ≤ s.index := by
  have hv := s.valid.header
  have hk : s.kind = .code := by rw [s.kind_of_header, h]
  simp only [ShredFields.HeaderValid, hk, h] at hv
  exact ⟨hk, hv⟩

theorem kind_data_iff : s.kind = .data ↔ ∃ parentOffset flags size, s.header = .data parentOffset flags size := by
  rw [s.kind_of_header]
  cases s.header <;> simp

theorem parse_eq_ok_iff {packet : Bytes} {s : Shred} :
    parse packet = .ok s ↔ parseFields packet = .ok s.toShredFields := by
  unfold parse
  split
  · rename_i e h
    simp [h]
  · rename_i f h
    constructor
    · intro he
      cases he
      exact h
    · intro he
      obtain ⟨f', hf'⟩ := s
      have hf : f = f' := Except.ok.inj (h.symm.trans he)
      subst hf
      rfl

theorem parse_bytes : parse s.bytes = .ok s := parse_eq_ok_iff.mpr s.parsed

theorem bytes_of_parse {packet : Bytes} {s : Shred} (h : parse packet = .ok s) :
    s.bytes = packet.take (wireSize s.kind) ∧ wireSize s.kind ≤ packet.length := by
  have hok := parseFields_ok (parse_eq_ok_iff.mp h)
  exact ⟨hok.2.2, hok.2.1⟩

theorem parse_of_headers (b : Bytes) (heq : b.take 89 = s.bytes.take 89)
    (hlen : b.length = s.bytes.length) :
    ∃ s' : Shred, parse b = .ok s' ∧ s'.toShredFields = { s.toShredFields with bytes := b } := by
  have hlen' : b.length = wireSize s.kind := hlen.trans s.bytes_length
  have hok := parseFields_congr s.parsed heq hlen'.ge
  rw [List.take_of_length_le hlen'.le] at hok
  have hre : parseFields b = .ok { s.toShredFields with bytes := b } := hok
  exact ⟨⟨{ s.toShredFields with bytes := b }, hre⟩, parse_eq_ok_iff.mpr hre, rfl⟩

/-! ### Accessors -/

def isData : Bool := s.kind = .data

def signature : Signature :=
  ⟨slice s.bytes 0 signatureSize ⟨by decide, by have := s.bytes_length_ge; simp only [signatureSize]; omega⟩,
    by simp [signatureSize]⟩

def parentSlot : Option ℕ :=
  match s.header with
  | .data parentOffset _ _ => some (s.slot - parentOffset)
  | .code _ => none

def flags : Option UInt8 :=
  match s.header with
  | .data _ flags _ => some flags
  | .code _ => none

def dataComplete : Bool := s.flags.any fun f => f &&& flagDataComplete ≠ 0

def lastInSlot : Bool := s.flags.any fun f => f &&& flagLastInSlot = flagLastInSlot

theorem data_in_bounds {parentOffset : ℕ} {flags : UInt8} {size : ℕ}
    (h : s.header = .data parentOffset flags size) : dataHeadersSize ≤ size ∧ size ≤ s.bytes.length := by
  have hd := s.data_header h
  have hl := s.layout
  simp only [hd.1, headersSize, dataHeadersSize] at hl ⊢
  omega

/-- Entry bytes carried by a data shred; empty for code shreds. -/
def data : Bytes :=
  match h : s.header with
  | .data _ _ size => slice s.bytes dataHeadersSize size (s.data_in_bounds h)
  | .code _ => []

def erasureStart : ℕ :=
  match s.kind with
  | .data => signatureSize
  | .code => codeHeadersSize

def erasureEnd : ℕ := headersSize s.kind + s.capacity

theorem erasure_in_bounds : s.erasureStart ≤ s.erasureEnd ∧ s.erasureEnd ≤ s.bytes.length := by
  have hl := s.layout
  unfold erasureStart erasureEnd
  cases hk : s.kind <;>
    simp only [hk, headersSize, signatureSize, dataHeadersSize, codeHeadersSize] at hl ⊢ <;> omega

/-- The part of the payload that takes part in erasure coding. -/
def erasureShard : Bytes := slice s.bytes s.erasureStart s.erasureEnd s.erasure_in_bounds

/-- Data shreds first, then code. -/
def erasureShardIndex : ℕ :=
  match s.header with
  | .data .. => s.index - s.fecSetIndex
  | .code position => dataShredsPerFecSet + position

def proofOffset : ℕ := headersSize s.kind + s.capacity + merkleRootSize

def proofEnd : ℕ := s.proofOffset + s.proofSize * Merkle.proofEntrySize

theorem proof_in_bounds : s.proofOffset ≤ s.proofEnd ∧ s.proofEnd ≤ s.bytes.length := by
  have hl := s.layout
  simp only [proofEnd, proofOffset, merkleRootSize, Merkle.proofEntrySize]
  omega

theorem leaf_in_bounds : signatureSize ≤ s.proofOffset ∧ s.proofOffset ≤ s.bytes.length := by
  have hp := s.proof_in_bounds
  have hh : 64 ≤ headersSize s.kind := by cases s.kind <;> decide
  simp only [proofOffset, merkleRootSize, signatureSize] at hp ⊢
  omega

/-- Merkle root of the previous FEC set, as carried by this shred. -/
def chainedMerkleRoot : Bytes :=
  slice s.bytes (s.proofOffset - merkleRootSize) s.proofOffset ⟨Nat.sub_le _ _, s.leaf_in_bounds.2⟩

def merkleProof : Bytes := slice s.bytes s.proofOffset s.proofEnd s.proof_in_bounds

theorem merkleProof_length : s.merkleProof.length = s.proofSize * Merkle.proofEntrySize := by
  rw [merkleProof, slice_length, proofEnd, Nat.add_sub_cancel_left]

def retransmitterSignature : Option Signature :=
  if s.resigned then
    some ⟨slice s.bytes (s.bytes.length - signatureSize) s.bytes.length ⟨Nat.sub_le _ _, le_rfl⟩, by
      have := s.bytes_length_ge
      simp only [slice_length, signatureSize]
      omega⟩
  else none

/- Everything between the leader signature and the proof. -/
def leafBytes : Bytes := slice s.bytes signatureSize s.proofOffset s.leaf_in_bounds

def merkleLeaf [Hasher] : Hash32 := Merkle.leaf s.leafBytes

/-- Root of the FEC set recomputed from this shred's own proof. -/
def merkleRoot [Hasher] : Option Hash32 :=
  Merkle.rootFromProof s.erasureShardIndex s.merkleLeaf s.merkleProof

/-- `erasureShardIndex` as an index into `FecSet::data` or `FecSet::code`. -/
def position : Position :=
  match h : s.header with
  | .data .. => .data ⟨s.index - s.fecSetIndex, by have := s.data_header h; omega⟩
  | .code position => .code ⟨position, (s.code_header h).2.1⟩

theorem isData_iff : s.isData = true ↔ s.kind = .data := by simp [isData]

theorem position_data {p : Fin 32} (h : s.position = .data p) : s.kind = .data ∧
    s.index = s.fecSetIndex + p ∧ s.fecSetIndex ≤ 32736 ∧ s.erasureShardIndex = p := by
  unfold position at h
  split at h
  · rename_i po fl size hh
    have hd := s.data_header hh
    have hi := s.valid.index
    have ha := s.valid.aligned
    have hp : s.index - s.fecSetIndex = p := congrArg Fin.val (Position.data.inj h)
    have he : s.erasureShardIndex = s.index - s.fecSetIndex := by simp [erasureShardIndex, hh]
    exact ⟨hd.1, by omega, by omega, he.trans hp⟩
  · contradiction

theorem position_code {p : Fin 32} (h : s.position = .code p) :
    s.kind = .code ∧ s.erasureShardIndex = 32 + p := by
  unfold position at h
  split at h
  · contradiction
  · rename_i position hh
    have hp : position = p := congrArg Fin.val (Position.code.inj h)
    refine ⟨(s.code_header hh).1, ?_⟩
    simp [erasureShardIndex, hh, dataShredsPerFecSet, hp]

theorem exists_position_data (h : s.kind = .data) : ∃ p, s.position = .data p := by
  cases hp : s.position with
  | data p => exact ⟨p, rfl⟩
  | code p =>
    rw [(s.position_code hp).1] at h
    contradiction

theorem exists_position_code (h : s.kind = .code) : ∃ p, s.position = .code p := by
  cases hp : s.position with
  | data p =>
    rw [(s.position_data hp).1] at h
    contradiction
  | code p => exact ⟨p, rfl⟩

theorem erasureShard_length :
    s.erasureShard.length + 20 * s.proofSize + (if s.resigned then 64 else 0) = 1107 := by
  have hl := s.layout
  rw [s.bytes_length] at hl
  rw [erasureShard, slice_length]
  unfold erasureStart erasureEnd
  cases hk : s.kind <;> simp only [hk, headersSize, wireSize, signatureSize, dataHeadersSize, codeHeadersSize,
    dataShredSize, codeShredSize] at hl ⊢ <;> omega

theorem chainedMerkleRoot_length : s.chainedMerkleRoot.length = 32 := by
  have hb := s.leaf_in_bounds
  simp only [chainedMerkleRoot, slice_length, proofOffset, merkleRootSize]
  omega

theorem retransmitterSignature_isSome : s.retransmitterSignature.isSome = s.resigned := by
  unfold retransmitterSignature
  split <;> simp_all

/-- The shred at position 0 always has a root: its index needs no proof entries. -/
theorem merkleRoot_isSome [Hasher] (h : s.erasureShardIndex = 0) : s.merkleRoot.isSome := by
  rw [merkleRoot, h]
  exact Merkle.rootFromProof_index_zero _ _

end Shred
end Deshred
