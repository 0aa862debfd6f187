import BlockFilter.Proofs.FooterFaults
import BlockFilter.Proofs.Offsets

/-! The verdict on a byte string. It is told from fixed places of the byte string, by checks in a
fixed order, and each place is looked at only after a check that it is there. Decoding comes to the
same verdict on every byte string, so no byte string makes it look past an end. -/

namespace BlockFilter.FooterBlock

open Offset

/-! ## The verdict -/

def kindOf? : Nat → Option FilterKind
  | 0 => some .bloom
  | 1 => some .hybrid
  | 2 => some .bounds
  | _ => none

def inputOf? : Nat → Option PositionInput
  | 0 => some .keyHash
  | 1 => some .ordinal
  | _ => none

/-- Three words of metadata: the variant, the size of the bit array, the position input. What
follows them is not looked at. -/
def metadataVerdict? (metadata : Bytes) : Option (Except MetadataFault Metadata) :=
  if metadata.length < 4 then some (.error .endOfInput)
  else do
    let kindIndex ← uint32? metadata 0
    match kindOf? kindIndex.toNat with
    | none => return .error (.unknownChoice kindIndex 3)
    | some kind =>
        if metadata.length < 12 then return .error .endOfInput
        else
          let bloomBytes ← uint32? metadata 4
          let inputIndex ← uint32? metadata 8
          match inputOf? inputIndex.toNat with
          | none => return .error (.unknownChoice inputIndex 2)
          | some positionInput => return .ok ⟨kind, bloomBytes, positionInput⟩

def filterAt? (metadata : Metadata) (input : Bytes) (start : Nat) : Option TableFilter :=
  let size := metadata.bloomBytes.toNat
  match metadata.kind with
  | .bloom => TableFilter.bloomAt? size input start
  | .hybrid => (LearnedIndex.at? size input start).map (.hybrid · metadata.positionInput)
  | .bounds => (SpanFilter.at? size input start).map .bounds

/-- Metadata and payload of a block whose checksum is right. -/
def bodyVerdict? (metadata payload : Bytes) : Option (Except FilterError TableFilter) := do
  match ← metadataVerdict? metadata with
  | .error fault => return .error (.metadata fault)
  | .ok metadata =>
      let expected := metadata.bloomBytes.toNat + metadata.kind.trailerBytes
      if payload.length < expected then return .error (.truncated expected payload.length)
      else
        let filter ← filterAt? metadata (payload.take expected) 0
        return .ok filter

/-- The verdict on a block. It is `none` where a place is looked at that is not there. -/
def verdict? (block : Bytes) : Option (Except FilterError TableFilter) :=
  if block.length < 18 then some (.error (.truncated 18 block.length))
  else do
    let foundMagic ← bytes? block 0 4
    let foundVersion ← number? block 4 2
    if foundMagic ≠ magic then return .error (.corrupted (.wrongMagic foundMagic))
    else if foundVersion ≠ 1 then return .error (.corrupted (.unsupportedVersion foundVersion))
    else
      let metadataBytes ← number? block 6 4
      let payloadBytes ← number? block 10 4
      let bodyEnd := 14 + metadataBytes + payloadBytes
      if block.length < bodyEnd + 4 then
        return .error (.truncated (bodyEnd + 4) block.length)
      else
        let body ← bytes? block 14 (metadataBytes + payloadBytes)
        let stored ← uint32? block bodyEnd
        let computed := Crc32.checksum body
        if stored ≠ computed then
          return .error (.corrupted (.checksumMismatch stored computed))
        else
          let metadata ← bytes? body 0 metadataBytes
          let payload ← bytes? body metadataBytes payloadBytes
          bodyVerdict? metadata payload

/-! ## Metadata -/

theorem choose_kind (index : UInt32) :
    Metadata.choose [.bloom, .hybrid, .bounds] index =
      (kindOf? index.toNat).elim (.error (.unknownChoice index 3)) .ok := by
  rw [Metadata.choose]
  rcases index.toNat with _ | _ | _ | _ <;> rfl

theorem choose_input (index : UInt32) :
    Metadata.choose [.keyHash, .ordinal] index =
      (inputOf? index.toNat).elim (.error (.unknownChoice index 2)) .ok := by
  rw [Metadata.choose]
  rcases index.toNat with _ | _ | _ <;> rfl

theorem word_of_length_lt {metadata : Bytes} {start : Nat} (hStart : start ≤ metadata.length)
    (hShort : metadata.length < start + 4) :
    Metadata.word (metadata.drop start) = .error .endOfInput := by
  rw [Metadata.word, ByteReader.uint32_readsAt.run_drop_eq_none hStart hShort]

theorem exists_word {metadata : Bytes} {start : Nat} (hEnough : start + 4 ≤ metadata.length) :
    ∃ word, uint32? metadata start = some word ∧
      Metadata.word (metadata.drop start) = .ok (word, metadata.drop (start + 4)) := by
  obtain ⟨word, hWord, hRun⟩ := ByteReader.uint32_readsAt.exists_run_drop hEnough
  refine ⟨word, hWord, ?_⟩
  rw [Metadata.word, hRun]

theorem metadataVerdict?_eq (metadata : Bytes) :
    metadataVerdict? metadata = some (Metadata.ofBytes metadata) := by
  rw [metadataVerdict?]
  by_cases hShort : metadata.length < 4
  · have hWord := word_of_length_lt (Nat.zero_le _) (Nat.zero_add 4 ▸ hShort)
    rw [List.drop_zero] at hWord
    rw [if_pos hShort, Metadata.ofBytes, hWord]
    rfl
  obtain ⟨kindIndex, hKind, hWord⟩ := exists_word (Nat.zero_add 4 ▸ Nat.le_of_not_lt hShort)
  rw [List.drop_zero] at hWord
  rw [if_neg hShort, hKind, Option.bind_eq_bind, Option.bind_some, Metadata.ofBytes, hWord]
  change _ = some (Metadata.choose [FilterKind.bloom, .hybrid, .bounds] kindIndex >>= _)
  rw [choose_kind]
  cases kindOf? kindIndex.toNat with
  | none => rfl
  | some kind =>
      change ite _ _ _ = some (Metadata.word (metadata.drop 4) >>= _)
      by_cases hMiddle : metadata.length < 8
      · have hEnd : metadata.length < 12 := by omega
        rw [if_pos hEnd, word_of_length_lt (Nat.le_of_not_lt hShort) hMiddle]
        rfl
      obtain ⟨bloomBytes, hBloom, hWord⟩ := exists_word (Nat.le_of_not_lt hMiddle)
      rw [hWord]
      change _ = some (Metadata.word (metadata.drop 8) >>= _)
      by_cases hEnd : metadata.length < 12
      · rw [if_pos hEnd, word_of_length_lt (Nat.le_of_not_lt hMiddle) hEnd]
        rfl
      obtain ⟨inputIndex, hInput, hWord⟩ := exists_word (Nat.le_of_not_lt hEnd)
      rw [if_neg hEnd, hBloom, hInput, hWord]
      change _ = some (Metadata.choose [PositionInput.keyHash, .ordinal] inputIndex >>= _)
      rw [choose_input]
      simp only [Option.bind_some]
      cases inputOf? inputIndex.toNat with
      | none => rfl
      | some positionInput => rfl

/-! ## Payload -/

variable {metadata : Metadata} {payload : Bytes}

/-- The reader of the variant that metadata tell. -/
def payloadReader (metadata : Metadata) : ByteReader TableFilter :=
  let size := metadata.bloomBytes.toNat
  match metadata.kind with
  | .bloom => TableFilter.bloomReader size
  | .hybrid => (.hybrid · metadata.positionInput) <$> LearnedIndex.reader size
  | .bounds => .bounds <$> SpanFilter.reader size

theorem payloadReader_readsAt (metadata : Metadata) :
    ReadsAt (payloadReader metadata) (metadata.bloomBytes.toNat + metadata.kind.trailerBytes)
      (filterAt? metadata) := by
  obtain ⟨kind, bloomBytes, positionInput⟩ := metadata
  cases kind with
  | bloom => exact TableFilter.bloomReader_readsAt _
  | hybrid => exact (LearnedIndex.reader_readsAt _).map (TableFilter.hybrid · positionInput)
  | bounds => exact (SpanFilter.reader_readsAt _).map TableFilter.bounds

theorem map_fst_readOr_map {α β : Type} (reader : ByteReader α) (f : α → β)
    (expected actual : Nat) (input : Bytes) :
    (readOr (f <$> reader) expected actual input).map Prod.fst =
      ((readOr reader expected actual input).map Prod.fst).map f := by
  rw [readOr, readOr, StateT.run_map]
  cases reader.run input with
  | none => rfl
  | some result => rfl

/-- The size of a bit array is a 32-bit number in metadata, so the size of the whole is always a
64-bit number. -/
theorem readPayload_eq (metadata : Metadata) (payload : Bytes) :
    readPayload metadata payload = (readOr (payloadReader metadata)
      (metadata.bloomBytes.toNat + metadata.kind.trailerBytes) payload.length payload).map
        Prod.fst := by
  obtain ⟨kind, bloomBytes, positionInput⟩ := metadata
  have hSize := bloomBytes.toNat_lt_size
  cases kind with
  | bloom => rfl
  | hybrid =>
      have hFits : ¬UInt64.size ≤ bloomBytes.toNat + LearnedIndex.trailerBytes := by
        simp only [UInt32.size, UInt64.size, LearnedIndex.trailerBytes,
          FittedLine.sizeBytes] at hSize ⊢
        omega
      rw [readPayload, LearnedIndex.ofBytes, if_neg hFits, payloadReader, map_fst_readOr_map]
      rfl
  | bounds =>
      have hFits : ¬UInt64.size ≤ bloomBytes.toNat + SpanFilter.trailerBytes := by
        simp only [UInt32.size, UInt64.size, SpanFilter.trailerBytes] at hSize ⊢
        omega
      rw [readPayload, SpanFilter.ofBytes, if_neg hFits, payloadReader, map_fst_readOr_map]
      rfl

theorem readPayload_of_length_lt
    (hShort : payload.length < metadata.bloomBytes.toNat + metadata.kind.trailerBytes) :
    readPayload metadata payload = .error
      (.truncated (metadata.bloomBytes.toNat + metadata.kind.trailerBytes) payload.length) := by
  rw [readPayload_eq, (payloadReader_readsAt metadata).readOr_of_length_lt hShort]
  rfl

/-- A payload that holds more than the filter gives the same filter. -/
theorem exists_filterAt?
    (hEnough : metadata.bloomBytes.toNat + metadata.kind.trailerBytes ≤ payload.length) :
    ∃ filter, filterAt? metadata
        (payload.take (metadata.bloomBytes.toNat + metadata.kind.trailerBytes)) 0 = some filter ∧
      readPayload metadata payload = .ok filter := by
  let expected := metadata.bloomBytes.toNat + metadata.kind.trailerBytes
  have hFront : expected ≤ (payload.take expected).length :=
    Nat.le_of_eq (List.length_take_of_le hEnough).symm
  obtain ⟨filter, hFilter, hFound⟩ := (payloadReader_readsAt metadata).exists_readOr hFront
  have hRead : readPayload metadata (payload.take expected) = .ok filter := by
    rw [readPayload_eq, hFound]
    rfl
  obtain ⟨hDescribes, rest, hBytes⟩ := readPayload_eq_ok_iff.mp hRead
  have hPayload : payload = filter.toBytes ++ (rest ++ payload.drop expected) := by
    rw [← List.append_assoc, ← hBytes, List.take_append_drop]
  exact ⟨filter, hFilter, readPayload_eq_ok_iff.mpr ⟨hDescribes, _, hPayload⟩⟩

theorem bodyVerdict?_eq (metadata payload : Bytes) :
    bodyVerdict? metadata payload = some (do
      let metadata ← (Metadata.ofBytes metadata).mapError FilterError.metadata
      readPayload metadata payload) := by
  rw [bodyVerdict?, metadataVerdict?_eq]
  cases Metadata.ofBytes metadata with
  | error fault => rfl
  | ok metadata =>
      change ite _ _ _ = some (readPayload metadata payload)
      by_cases hShort : payload.length < metadata.bloomBytes.toNat + metadata.kind.trailerBytes
      · rw [if_pos hShort, readPayload_of_length_lt hShort]
        rfl
      · obtain ⟨filter, hFilter, hRead⟩ := exists_filterAt? (Nat.le_of_not_lt hShort)
        rw [if_neg hShort, hFilter, hRead]
        rfl

/-! ## Blocks -/

variable {block : Bytes}

theorem exists_header (hEnough : 18 ≤ block.length) :
    ∃ header : Header, bytes? block 0 4 = some header.magic ∧
      number? block 4 2 = some header.version ∧ number? block 6 4 = some header.metadataBytes ∧
      number? block 10 4 = some header.payloadBytes ∧
      Header.reader.run block = some (header, block.drop 14) := by
  have hReads := (ByteReader.bytes_readsAt 4).bind fun magic =>
    (ByteReader.number_readsAt 2).bind fun version =>
    (ByteReader.number_readsAt 4).bind fun metadataBytes =>
    (ByteReader.number_readsAt 4).bind fun payloadBytes =>
    ReadsAt.pure (⟨magic, version, metadataBytes, payloadBytes⟩ : Header)
  have hFields : 0 + 14 ≤ block.length := by omega
  obtain ⟨header, hAt, hRun⟩ := hReads.exists_run_drop hFields
  simp only [Option.bind_eq_some_iff, Option.some.injEq, Nat.reduceAdd] at hAt
  obtain ⟨magic, hMagic, version, hVersion, metadataBytes, hMetadata, payloadBytes, hPayload,
    hHeader⟩ := hAt
  have hHeaderRun : Header.reader.run block = some (header, block.drop 14) := by
    have hFooter : headerBytes + footerBytes ≤ block.length := hEnough
    rw [Header.reader, StateT.run_bind, ByteReader.ensure_run, if_pos hFooter]
    exact hRun
  subst hHeader
  exact ⟨⟨magic, version, metadataBytes, payloadBytes⟩, hMagic, hVersion, hMetadata, hPayload,
    hHeaderRun⟩

theorem exists_sections {header : Header}
    (hEnough : 14 + header.metadataBytes + header.payloadBytes + 4 ≤ block.length) :
    ∃ sections : Sections, ∃ trailing,
      uint32? block (14 + header.metadataBytes + header.payloadBytes) = some sections.checksum ∧
      bytes? block 14 (header.metadataBytes + header.payloadBytes) =
        some (sections.metadata ++ sections.payload) ∧
      sections.metadata.length = header.metadataBytes ∧
      sections.payload.length = header.payloadBytes ∧
      (Sections.reader header).run (block.drop 14) = some (sections, trailing) := by
  have hReads := (ByteReader.bytes_readsAt header.metadataBytes).bind fun metadata =>
    (ByteReader.bytes_readsAt header.payloadBytes).bind fun payload =>
    ByteReader.uint32_readsAt.bind fun checksum =>
    ReadsAt.pure (⟨metadata, payload, checksum⟩ : Sections)
  have hFields : 14 + (header.metadataBytes + (header.payloadBytes + (4 + 0))) ≤ block.length := by
    omega
  obtain ⟨sections, hAt, hRun⟩ := hReads.exists_run_drop hFields
  simp only [Option.bind_eq_some_iff, Option.some.injEq] at hAt
  obtain ⟨metadata, hMetadata, payload, hPayload, checksum, hChecksum, hSections⟩ := hAt
  subst hSections
  exact ⟨⟨metadata, payload, checksum⟩, _, hChecksum, bytes?_add hMetadata hPayload,
    length_of_bytes? hMetadata, length_of_bytes? hPayload, hRun⟩

/-- Decoding comes to the verdict on every byte string, and the verdict looks at no place that is
not there. -/
theorem verdict?_eq_some_decode (block : Bytes) : verdict? block = some (decode block) := by
  rw [verdict?]
  by_cases hShort : block.length < 18
  · rw [if_pos hShort, decode_of_length_lt hShort]
    rfl
  obtain ⟨header, hMagic, hVersion, hMetadata, hPayload, hHeader⟩ :=
    exists_header (Nat.le_of_not_lt hShort)
  simp only [if_neg hShort, hMagic, hVersion, hMetadata, hPayload, Option.bind_eq_bind,
    Option.bind_some, Option.pure_def]
  by_cases hWrong : header.magic ≠ magic
  · have hFault : header.check = .error (.wrongMagic header.magic) := if_pos hWrong
    rw [if_pos hWrong, decode_of_header_fault hHeader hFault]
  rw [if_neg hWrong]
  by_cases hOther : header.version ≠ 1
  · have hFault : header.check = .error (.unsupportedVersion header.version) := by
      rw [Header.check, if_neg hWrong]
      exact if_pos hOther
    rw [if_pos hOther, decode_of_header_fault hHeader hFault]
  rw [if_neg hOther]
  have hCheck : header.check = .ok () :=
    Header.check_eq_ok_iff.mpr ⟨Decidable.not_not.mp hWrong, Decidable.not_not.mp hOther⟩
  by_cases hCut : block.length < 14 + header.metadataBytes + header.payloadBytes + 4
  · rw [if_pos hCut, decode_of_length_lt_blockBytes hHeader hCheck hCut]
    rfl
  obtain ⟨sections, trailing, hStored, hBody, hLeft, hRight, hSections⟩ :=
    exists_sections (Nat.le_of_not_lt hCut)
  rw [if_neg hCut, hStored, hBody, decode_of_sections hHeader hCheck hSections, Sections.check,
    ← hLeft, ← hRight]
  simp only [Option.bind_some, bytes?_append_left, bytes?_append_right]
  by_cases hSum : sections.checksum ≠ Crc32.checksum (sections.metadata ++ sections.payload)
  · rw [if_pos hSum, if_pos hSum]
    rfl
  · rw [if_neg hSum, if_neg hSum]
    exact bodyVerdict?_eq sections.metadata sections.payload

end BlockFilter.FooterBlock
