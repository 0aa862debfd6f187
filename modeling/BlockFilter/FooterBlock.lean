import BlockFilter.Bytes.Crc32
import BlockFilter.TableFilter

/-! The footer block, in which a filter is stored. A header of fixed size gives the lengths of two
sections: metadata that tell the variant and the size of its bit array, and the stored form of the
variant. A checksum over both sections follows. Writing and reading agree on every filter, and
reading names the first check that fails. -/

namespace BlockFilter.FooterBlock

/-- The four bytes `AKVF` that every block starts with. -/
def magic : Bytes := [65, 75, 86, 70]

def version : Nat := 1

/-- Bytes of the magic, the version and the two lengths. -/
def headerBytes : Nat := 14

/-- Bytes of the checksum. -/
def footerBytes : Nat := 4

/-! ## Metadata -/

/-- What a reader has to know before it can read the stored form of a variant. -/
structure Metadata where
  kind : FilterKind
  bloomBytes : UInt32
  positionInput : PositionInput
  deriving DecidableEq, Repr

/-- The number of a variant in the metadata. -/
def kindIndex : FilterKind → UInt32
  | .bloom => 0
  | .hybrid => 1
  | .bounds => 2

/-- The number of a position input in the metadata. -/
def inputIndex : PositionInput → UInt32
  | .keyHash => 0
  | .ordinal => 1

namespace Metadata

/-- The metadata of a filter. A variant without a position model states the hash. -/
def ofFilter (filter : TableFilter) : Except MetadataFault Metadata :=
  if UInt32.size ≤ filter.bloomBytes then .error (.bloomTooLarge filter.bloomBytes)
  else .ok ⟨filter.kind, UInt32.ofNat filter.bloomBytes, filter.positionInput?.getD .keyHash⟩

def toBytes (metadata : Metadata) : Bytes :=
  LittleEndian.uint32 (kindIndex metadata.kind) ++ LittleEndian.uint32 metadata.bloomBytes ++
    LittleEndian.uint32 (inputIndex metadata.positionInput)

/-- The next word of the metadata and what follows it. -/
def word (input : Bytes) : Except MetadataFault (UInt32 × Bytes) :=
  match ByteReader.uint32.run input with
  | some result => .ok result
  | none => .error .endOfInput

/-- The choice that a number stands for. -/
def choose {α : Type} (choices : List α) (index : UInt32) : Except MetadataFault α :=
  match choices[index.toNat]? with
  | some choice => .ok choice
  | none => .error (.unknownChoice index choices.length)

/-- Read metadata field by field; the first fault decides. Bytes after the fields are ignored. -/
def ofBytes (input : Bytes) : Except MetadataFault Metadata := do
  let (index, input) ← word input
  let kind ← choose [.bloom, .hybrid, .bounds] index
  let (bloomBytes, input) ← word input
  let (index, _) ← word input
  let positionInput ← choose [.keyHash, .ordinal] index
  return ⟨kind, bloomBytes, positionInput⟩

end Metadata

/-! ## Writing -/

/-- The checksum of both sections, and all before it. -/
def assemble (metadata payload : Bytes) : Bytes :=
  magic ++ LittleEndian.ofNat 2 version ++ LittleEndian.ofNat 4 metadata.length ++
    LittleEndian.ofNat 4 payload.length ++ (metadata ++ payload) ++
    LittleEndian.uint32 (Crc32.checksum (metadata ++ payload))

/-- The footer block of a filter. It fails only for a bit array too large for its size field. -/
def encode (filter : TableFilter) : Except FilterError Bytes := do
  let metadata ← (Metadata.ofFilter filter).mapError FilterError.metadata
  return assemble metadata.toBytes filter.toBytes

/-! ## Reading -/

structure Header where
  magic : Bytes
  version : Nat
  metadataBytes : Nat
  payloadBytes : Nat
  deriving DecidableEq, Repr

namespace Header

/-- The header of a block, which has at least a header and a footer. -/
def reader : ByteReader Header := do
  ByteReader.ensure (headerBytes + footerBytes)
  let magic ← ByteReader.bytes 4
  let version ← ByteReader.number 2
  let metadataBytes ← ByteReader.number 4
  let payloadBytes ← ByteReader.number 4
  return ⟨magic, version, metadataBytes, payloadBytes⟩

/-- A block is of this format and of this version of it. -/
def check (header : Header) : Except BlockFault Unit :=
  if header.magic ≠ FooterBlock.magic then .error (.wrongMagic header.magic)
  else if header.version ≠ FooterBlock.version then .error (.unsupportedVersion header.version)
  else .ok ()

/-- Bytes of the whole block. -/
def blockBytes (header : Header) : Nat :=
  headerBytes + header.metadataBytes + header.payloadBytes + footerBytes

end Header

/-- The sections after the header. -/
structure Sections where
  metadata : Bytes
  payload : Bytes
  checksum : UInt32
  deriving DecidableEq, Repr

namespace Sections

def reader (header : Header) : ByteReader Sections := do
  let metadata ← ByteReader.bytes header.metadataBytes
  let payload ← ByteReader.bytes header.payloadBytes
  let checksum ← ByteReader.uint32
  return ⟨metadata, payload, checksum⟩

/-- The stored checksum is that of the sections. -/
def check (sections : Sections) : Except BlockFault Unit :=
  let computed := Crc32.checksum (sections.metadata ++ sections.payload)
  if sections.checksum ≠ computed then .error (.checksumMismatch sections.checksum computed)
  else .ok ()

end Sections

/-- The filter in a payload. Bytes after its stored form are ignored. -/
def readPayload (metadata : Metadata) (payload : Bytes) : Except FilterError TableFilter :=
  let bloomBytes := metadata.bloomBytes.toNat
  match metadata.kind with
  | .bloom =>
      let expected := bloomBytes + TableFilter.bloomTrailerBytes
      (readOr (TableFilter.bloomReader bloomBytes) expected payload.length payload).map Prod.fst
  | .hybrid =>
      (LearnedIndex.ofBytes payload bloomBytes).map (TableFilter.hybrid · metadata.positionInput)
  | .bounds => (SpanFilter.ofBytes payload bloomBytes).map TableFilter.bounds

/-- The filter in a footer block. Bytes after the block are ignored. -/
def decode (block : Bytes) : Except FilterError TableFilter := do
  let (header, rest) ← readOr Header.reader (headerBytes + footerBytes) block.length block
  header.check.mapError FilterError.corrupted
  let (sections, _) ← readOr (Sections.reader header) header.blockBytes block.length rest
  sections.check.mapError FilterError.corrupted
  let metadata ← (Metadata.ofBytes sections.metadata).mapError FilterError.metadata
  readPayload metadata sections.payload

/-- What decoding reports: the fault of a block that is refused as corrupted. -/
def decodeEvents : Except FilterError TableFilter → List Event
  | .error (.corrupted fault) => [.blockRejected fault]
  | _ => []

@[simp] theorem Metadata.toBytes_length (metadata : Metadata) : metadata.toBytes.length = 12 := by
  simp [Metadata.toBytes]

theorem assemble_length (metadata payload : Bytes) :
    (assemble metadata payload).length =
      headerBytes + metadata.length + payload.length + footerBytes := by
  simp only [assemble, magic, headerBytes, footerBytes, List.length_append, List.length_cons,
    List.length_nil, LittleEndian.length_ofNat, LittleEndian.length_uint32]
  omega

end BlockFilter.FooterBlock
