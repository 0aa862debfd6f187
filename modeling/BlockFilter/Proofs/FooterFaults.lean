import BlockFilter.Proofs.FooterGrammar

/-! The checks of a footer block, one after the other. Each lemma takes the checks before its own as
passed and tells what decoding answers where its own check fails. The last one takes the header and the
lengths as passed and leaves what is checked of the sections. -/

namespace BlockFilter.FooterBlock

variable {block rest trailing : Bytes} {header : Header} {sections : Sections} {fault : BlockFault}

/-- A byte string that is too short for a header and a footer has no header to read. -/
theorem decode_of_length_lt (h : block.length < headerBytes + footerBytes) :
    decode block = .error (.truncated (headerBytes + footerBytes) block.length) := by
  have hRun : Header.reader.run block = none := by
    rw [Header.reader, StateT.run_bind, ByteReader.ensure_run, if_neg (Nat.not_le_of_lt h)]
    rfl
  rw [decode, readOr, hRun]
  rfl

theorem decode_of_header (hHeader : Header.reader.run block = some (header, rest)) :
    decode block = (do
      header.check.mapError FilterError.corrupted
      let (sections, _) ← readOr (Sections.reader header) header.blockBytes block.length rest
      sections.check.mapError FilterError.corrupted
      let metadata ← (Metadata.ofBytes sections.metadata).mapError FilterError.metadata
      readPayload metadata sections.payload) := by
  rw [decode, readOr, hHeader]
  rfl

theorem decode_of_header_fault (hHeader : Header.reader.run block = some (header, rest))
    (hFault : header.check = .error fault) : decode block = .error (.corrupted fault) := by
  rw [decode_of_header hHeader, hFault]
  rfl

/-- The sections and the footer are missing as a whole where a part of them is. -/
theorem decode_of_length_lt_blockBytes (hHeader : Header.reader.run block = some (header, rest))
    (hCheck : header.check = .ok ()) (hShort : block.length < header.blockBytes) :
    decode block = .error (.truncated header.blockBytes block.length) := by
  obtain ⟨hFits, _, hBlock⟩ := Header.reader_run_eq_some_iff.mp hHeader
  have hRun : (Sections.reader header).run rest = none := by
    rw [Option.eq_none_iff_forall_ne_some]
    rintro ⟨sections, trailing⟩ hSections
    obtain ⟨hMetadata, hPayload, hRest⟩ := Sections.reader_run_eq_some_iff.mp hSections
    rw [hBlock, hRest, List.length_append, Header.length_toBytes hFits] at hShort
    simp only [List.length_append, LittleEndian.length_uint32, hMetadata, hPayload,
      Header.blockBytes, footerBytes] at hShort
    omega
  rw [decode_of_header hHeader, hCheck, readOr, hRun]
  rfl

theorem decode_of_sections (hHeader : Header.reader.run block = some (header, rest))
    (hCheck : header.check = .ok ())
    (hSections : (Sections.reader header).run rest = some (sections, trailing)) :
    decode block = (do
      sections.check.mapError FilterError.corrupted
      let metadata ← (Metadata.ofBytes sections.metadata).mapError FilterError.metadata
      readPayload metadata sections.payload) := by
  rw [decode_of_header hHeader, hCheck, readOr, hSections]
  rfl

end BlockFilter.FooterBlock
