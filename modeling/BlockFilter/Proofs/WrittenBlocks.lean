import BlockFilter.Proofs.FooterVerdict

/-! The block of a filter. Its header has 32 bits for the length of the stored form. Whatever is read
behind that header is cut into sections by what it states, and the fault of the sections is told from
there. Where the length of the stored form fits the header, the block is as long as it states. -/

namespace BlockFilter.FooterBlock

open Offset

variable {filter other : TableFilter} {block input : Bytes}

/-! ## Two sections -/

def Header.ofSections (metadata payload : Bytes) : Header :=
  ⟨FooterBlock.magic, FooterBlock.version, metadata.length, payload.length⟩

/-- What follows the header of a block with these sections. -/
def bodyAndFooter (metadata payload : Bytes) : Bytes :=
  metadata ++ payload ++ LittleEndian.uint32 (Crc32.checksum (metadata ++ payload))

theorem length_bodyAndFooter (metadata payload : Bytes) :
    (bodyAndFooter metadata payload).length = metadata.length + payload.length + 4 := by
  simp only [bodyAndFooter, List.length_append, LittleEndian.length_uint32]

theorem length_header_ofSections (metadata payload : Bytes) :
    (Header.ofSections metadata payload).toBytes.length = headerBytes := by
  simp only [Header.toBytes, Header.ofSections, List.length_append, LittleEndian.length_ofNat,
    magic, List.length_cons, List.length_nil, headerBytes]

theorem assemble_eq (metadata payload : Bytes) :
    assemble metadata payload =
      (Header.ofSections metadata payload).toBytes ++ bodyAndFooter metadata payload := by
  simp only [assemble, Header.toBytes, Header.ofSections, bodyAndFooter, List.append_assoc]

theorem take_assemble_append (metadata payload rest : Bytes) :
    (assemble metadata payload ++ rest).take headerBytes =
      (Header.ofSections metadata payload).toBytes := by
  rw [assemble_eq, List.append_assoc, List.take_left' (length_header_ofSections ..)]

theorem drop_assemble_append (metadata payload rest : Bytes) :
    (assemble metadata payload ++ rest).drop headerBytes =
      bodyAndFooter metadata payload ++ rest := by
  rw [assemble_eq, List.append_assoc, List.drop_left' (length_header_ofSections ..)]

/-! ## The block of a filter -/

theorem length_of_encode (hEncode : encode filter = .ok block) :
    block.length = headerBytes + 12 + filter.sizeBytes + footerBytes := by
  rw [(encode_eq_ok_iff.mp hEncode).2, assemble_length, Metadata.toBytes_length,
    TableFilter.toBytes_length]

/-- The header of a written block. It has 32 bits for the length of the stored form. -/
def Header.written (filter : TableFilter) : Header :=
  ⟨FooterBlock.magic, FooterBlock.version, 12, filter.sizeBytes % UInt32.size⟩

theorem Header.fits_written (filter : TableFilter) : (written filter).Fits where
  magic := rfl
  version := (by decide : FooterBlock.version < LittleEndian.size 2)
  metadataBytes := (by decide : 12 < LittleEndian.size 4)
  payloadBytes := Nat.mod_lt _ (by decide)

theorem Header.eq_of_toBytes_eq {first second : Header} (hFirst : first.Fits)
    (hSecond : second.Fits) (h : first.toBytes = second.toBytes) : first = second := by
  let footer : Bytes := [0, 0, 0, 0]
  have hRun : reader.run (first.toBytes ++ footer) = some (first, footer) :=
    reader_run_eq_some_iff.mpr ⟨hFirst, Nat.le_refl 4, rfl⟩
  have hRun' : reader.run (first.toBytes ++ footer) = some (second, footer) :=
    reader_run_eq_some_iff.mpr ⟨hSecond, Nat.le_refl 4, by rw [h]⟩
  exact (Prod.ext_iff.mp (Option.some.inj (hRun.symm.trans hRun'))).1

theorem Header.check_written (filter : TableFilter) : (written filter).check = .ok () :=
  check_eq_ok_iff.mpr ⟨rfl, rfl⟩

theorem Header.blockBytes_written (filter : TableFilter) :
    (written filter).blockBytes = 30 + filter.sizeBytes % UInt32.size := by
  simp only [blockBytes, written, headerBytes, footerBytes]
  omega

/-- A number and what is left of it in a width are stored alike. -/
theorem ofNat_mod_size (width n : Nat) :
    LittleEndian.ofNat width (n % LittleEndian.size width) = LittleEndian.ofNat width n := by
  have hStored := LittleEndian.ofNat_toNat (LittleEndian.ofNat width n)
  rwa [LittleEndian.length_ofNat, LittleEndian.toNat_ofNat] at hStored

theorem take_of_encode (hEncode : encode filter = .ok block) :
    block.take headerBytes = (Header.written filter).toBytes := by
  have hWidth : LittleEndian.size 4 = UInt32.size := by decide
  rw [(encode_eq_ok_iff.mp hEncode).2, ← List.append_nil (assemble ..), take_assemble_append]
  simp only [Header.toBytes, Header.ofSections, Header.written, Metadata.toBytes_length,
    TableFilter.toBytes_length, ← hWidth, ofNat_mod_size]

theorem length_eq_of_encode (hEncode : encode filter = .ok block)
    (hSize : filter.sizeBytes < UInt32.size) :
    (Header.written filter).blockBytes = block.length := by
  rw [Header.blockBytes_written, length_of_encode hEncode, Nat.mod_eq_of_lt hSize, headerBytes,
    footerBytes]
  omega

theorem blockBytes_le_of_encode (hEncode : encode filter = .ok block) :
    (Header.written filter).blockBytes ≤ block.length := by
  have hStated := Nat.mod_le filter.sizeBytes UInt32.size
  rw [Header.blockBytes_written, length_of_encode hEncode, headerBytes, footerBytes]
  omega

theorem drop_of_encode (hEncode : encode filter = .ok block) :
    block.drop headerBytes = bodyAndFooter (Metadata.written filter).toBytes filter.toBytes := by
  rw [(encode_eq_ok_iff.mp hEncode).2, ← List.append_nil (assemble ..), drop_assemble_append,
    List.append_nil]

/-! ## Blocks that are accepted -/

/-- Metadata in front of other bytes are no front part of other metadata. -/
theorem Metadata.eq_of_prefix {first second : Metadata} {rest rest' : Bytes}
    (h : first.toBytes ++ rest <+: second.toBytes ++ rest') : first = second := by
  obtain ⟨tail, hTail⟩ := h
  have hSecond := ofBytes_eq_ok_iff.mpr ⟨rest', hTail⟩
  rw [List.append_assoc, ofBytes_eq_ok_iff.mpr ⟨rest ++ tail, rfl⟩] at hSecond
  exact Except.ok.inj hSecond

theorem Metadata.Describes.sizeBytes_eq {metadata : Metadata} (h : metadata.Describes other)
    (hOf : metadata.Describes filter) : other.sizeBytes = filter.sizeBytes := by
  rw [TableFilter.sizeBytes_eq, TableFilter.sizeBytes_eq, h.kind, h.bloomBytes, hOf.kind,
    hOf.bloomBytes]

/-- A block that is accepted is assembled from the metadata and the stored form of its filter, each
with bytes after it that play no part. -/
theorem exists_assemble_of_decode (hDecode : decode input = .ok other) :
    ∃ (metadata : Metadata) (slack slack' rest : Bytes), metadata.Describes other ∧
      (metadata.toBytes ++ slack).length < UInt32.size ∧
      (other.toBytes ++ slack').length < UInt32.size ∧
      input = assemble (metadata.toBytes ++ slack) (other.toBytes ++ slack') ++ rest := by
  obtain ⟨_, _, rest, metadata, rfl, hMetadata, hPayload, hOf, hRead⟩ :=
    decode_eq_ok_iff.mp hDecode
  obtain ⟨slack, rfl⟩ := Metadata.ofBytes_eq_ok_iff.mp hOf
  obtain ⟨hDescribes, slack', rfl⟩ := readPayload_eq_ok_iff.mp hRead
  have hWidth : LittleEndian.size 4 = UInt32.size := by decide
  rw [hWidth] at hMetadata hPayload
  exact ⟨metadata, slack, slack', rest, hDescribes, hMetadata, hPayload, rfl⟩

/-- The payload of an accepted block has the length that the header states. -/
theorem sizeBytes_le_of_decode (hTake : input.take headerBytes = (Header.written filter).toBytes)
    (hDecode : decode input = .ok other) : other.sizeBytes ≤ filter.sizeBytes % UInt32.size := by
  obtain ⟨metadata, slack, slack', rest, _, hMetadata, hPayload, rfl⟩ :=
    exists_assemble_of_decode hDecode
  have hWidth : LittleEndian.size 4 = UInt32.size := by decide
  rw [take_assemble_append] at hTake
  have hHeader := Header.eq_of_toBytes_eq
    ⟨rfl, (by decide : FooterBlock.version < LittleEndian.size 2), hWidth ▸ hMetadata,
      hWidth ▸ hPayload⟩ (Header.fits_written filter) hTake
  have hLength : (other.toBytes ++ slack').length = filter.sizeBytes % UInt32.size :=
    congrArg Header.payloadBytes hHeader
  rw [← hLength, List.length_append, TableFilter.toBytes_length]
  exact Nat.le_add_right ..

/-- A written block leaves no room: whatever goes on after its header as the block does, or ends
before that, and is accepted all the same, is the block itself. -/
theorem eq_of_decode_of_drop_prefix (hEncode : encode filter = .ok block)
    (hDecode : decode input = .ok other)
    (hPrefix : input.drop headerBytes <+: block.drop headerBytes) : input = block := by
  obtain ⟨hBloom, hBlock⟩ := encode_eq_ok_iff.mp hEncode
  obtain ⟨metadata, slack, slack', rest, hDescribes, _, _, rfl⟩ :=
    exists_assemble_of_decode hDecode
  rw [drop_assemble_append, drop_of_encode hEncode] at hPrefix
  -- The metadata come first on both sides, so they are those of the block.
  have hMetadata : metadata = Metadata.written filter := by
    simp only [bodyAndFooter, List.append_assoc] at hPrefix
    exact Metadata.eq_of_prefix hPrefix
  subst hMetadata
  -- They tell the length of the stored form, and the block has room for that length only.
  have hSize := hDescribes.sizeBytes_eq (Metadata.describes_written hBloom)
  have hLength := hPrefix.length_le
  simp only [List.length_append, length_bodyAndFooter, TableFilter.toBytes_length, hSize] at hLength
  have hSlack : slack = [] := List.length_eq_zero_iff.mp (by omega)
  have hSlack' : slack' = [] := List.length_eq_zero_iff.mp (by omega)
  have hRest : rest = [] := List.length_eq_zero_iff.mp (by omega)
  subst hSlack hSlack' hRest
  simp only [List.append_nil] at hPrefix ⊢
  have hBodies := hPrefix.eq_of_length (by
    simp only [length_bodyAndFooter, TableFilter.toBytes_length, hSize])
  have hBytes : other.toBytes = filter.toBytes := by
    rw [bodyAndFooter, bodyAndFooter, List.append_assoc, List.append_assoc] at hBodies
    refine (List.append_inj (List.append_cancel_left hBodies) ?_).1
    rw [TableFilter.toBytes_length, TableFilter.toBytes_length, hSize]
  rw [hBytes, hBlock]

theorem exists_error_of_not_ok {ε α : Type} {result : Except ε α}
    (h : ∀ value, result ≠ .ok value) : ∃ error, result = .error error := by
  cases result with
  | error error => exact ⟨error, rfl⟩
  | ok value => exact absurd rfl (h value)

/-! ## Behind the header of a written block -/

theorem header_run_of_take (hTake : input.take headerBytes = (Header.written filter).toBytes)
    (hEnough : headerBytes + footerBytes ≤ input.length) :
    Header.reader.run input = some (Header.written filter, input.drop headerBytes) := by
  refine Header.reader_run_eq_some_iff.mpr ⟨Header.fits_written filter, ?_, ?_⟩
  · rw [List.length_drop]
    omega
  · rw [← hTake, List.take_append_drop]

/-- The word behind the sections, as the header of a filter states them, is their checksum. -/
def Checksummed (filter : TableFilter) (input : Bytes) : Prop :=
  ∃ body, bytes? input 14 (12 + filter.sizeBytes % UInt32.size) = some body ∧
    uint32? input (14 + 12 + filter.sizeBytes % UInt32.size) = some (Crc32.checksum body)

/-- What can be wrong with the sections of a block: their checksum, the metadata, or a payload that
is too short for them. -/
theorem Sections.fault_cases {sections : Sections} {error : FilterError}
    (h : (do
      sections.check.mapError FilterError.corrupted
      let metadata ← (Metadata.ofBytes sections.metadata).mapError FilterError.metadata
      readPayload metadata sections.payload) = .error error) :
    (∃ fault, sections.check = .error fault ∧ error = .corrupted fault) ∨
      sections.check = .ok () ∧ ((∃ fault, error = .metadata fault) ∨
        ∃ expected, error = .truncated expected sections.payload.length) := by
  cases hCheck : sections.check with
  | error fault =>
      rw [hCheck] at h
      exact .inl ⟨fault, rfl, (Except.error.inj h).symm⟩
  | ok =>
  refine .inr ⟨rfl, ?_⟩
  cases hOf : Metadata.ofBytes sections.metadata with
  | error fault =>
      rw [hCheck, hOf] at h
      exact .inl ⟨fault, (Except.error.inj h).symm⟩
  | ok metadata =>
      rw [hCheck, hOf] at h
      have hRead : readPayload metadata sections.payload = .error error := h
      refine .inr ⟨metadata.bloomBytes.toNat + metadata.kind.trailerBytes, ?_⟩
      rcases Nat.lt_or_ge sections.payload.length
        (metadata.bloomBytes.toNat + metadata.kind.trailerBytes) with hShort | hEnough
      · rw [readPayload_of_length_lt hShort] at hRead
        exact (Except.error.inj hRead).symm
      · obtain ⟨_, _, hFound⟩ := exists_filterAt? hEnough
        exact nomatch hFound.symm.trans hRead

section Behind

variable {expected actual : Nat}
  (hTake : input.take headerBytes = (Header.written filter).toBytes)
  (hEnough : (Header.written filter).blockBytes ≤ input.length)
include hTake hEnough

/-- Behind the header, bytes of the length that it states are taken as sections and a checksum. -/
theorem exists_sections_of_take : ∃ sections : Sections, ∃ trailing,
    (Checksummed filter input ↔ sections.check = .ok ()) ∧
    sections.metadata.length = 12 ∧ sections.payload.length = filter.sizeBytes % UInt32.size ∧
    input.drop headerBytes = sections.metadata ++ sections.payload ++
      LittleEndian.uint32 sections.checksum ++ trailing ∧
    decode input = (do
      sections.check.mapError FilterError.corrupted
      let metadata ← (Metadata.ofBytes sections.metadata).mapError FilterError.metadata
      readPayload metadata sections.payload) := by
  have hLength := hEnough
  rw [Header.blockBytes_written] at hLength
  have hHeader := header_run_of_take hTake (by rw [headerBytes, footerBytes]; omega)
  have hFit : 14 + (Header.written filter).metadataBytes + (Header.written filter).payloadBytes + 4
      ≤ input.length := by
    simp only [Header.written]
    omega
  obtain ⟨sections, trailing, hChecksum, hBody, hMetadata, hPayload, hSections⟩ :=
    exists_sections hFit
  simp only [Header.written] at hChecksum hBody
  refine ⟨sections, trailing, ?_, hMetadata, hPayload,
    (Sections.reader_run_eq_some_iff.mp hSections).2.2,
    decode_of_sections hHeader (Header.check_written filter) hSections⟩
  simp [Checksummed, hBody, hChecksum, Sections.check_eq_ok_iff]

theorem decode_of_not_checksummed (hSum : ¬Checksummed filter input) :
    ∃ stored computed,
      decode input = .error (.corrupted (.checksumMismatch stored computed)) := by
  obtain ⟨sections, _, hCheck, _, _, _, hDecode⟩ := exists_sections_of_take hTake hEnough
  rw [hCheck, Sections.check_eq_ok_iff] at hSum
  rw [hDecode, Sections.check, if_pos hSum]
  exact ⟨_, _, rfl⟩

/-- A block is refused as corrupted exactly where its checksum is wrong. -/
theorem exists_corrupted_iff : (∃ fault, decode input = .error (.corrupted fault)) ↔
    ¬Checksummed filter input := by
  constructor
  · rintro ⟨fault, hFault⟩ hSum
    obtain ⟨sections, _, hCheck, _, _, _, hDecode⟩ := exists_sections_of_take hTake hEnough
    rw [hDecode] at hFault
    obtain ⟨_, hWrong, _⟩ | ⟨_, ⟨_, hOther⟩ | ⟨_, hOther⟩⟩ := Sections.fault_cases hFault
    · exact nomatch hWrong.symm.trans (hCheck.mp hSum)
    · cases hOther
    · cases hOther
  · intro hSum
    obtain ⟨_, _, hFault⟩ := decode_of_not_checksummed hTake hEnough hSum
    exact ⟨_, hFault⟩

/-- A payload that is too short is told by the length that the header states. -/
theorem actual_of_truncated (hFault : decode input = .error (.truncated expected actual)) :
    actual = filter.sizeBytes % UInt32.size := by
  obtain ⟨sections, _, _, _, hPayload, _, hDecode⟩ := exists_sections_of_take hTake hEnough
  rw [hDecode] at hFault
  obtain ⟨_, _, hOther⟩ | ⟨_, ⟨_, hOther⟩ | ⟨_, hShort⟩⟩ := Sections.fault_cases hFault
  · cases hOther
  · cases hOther
  · rw [← hPayload]
    exact (FilterError.truncated.inj hShort).2

end Behind

end BlockFilter.FooterBlock
