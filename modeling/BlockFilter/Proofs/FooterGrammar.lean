import BlockFilter.FooterBlock
import BlockFilter.Proofs.StoredForms

/-! The grammar of footer blocks. A byte string decodes to a filter exactly when it starts with a
block whose two sections hold the metadata and the stored form of that filter. Each section, and the
block itself, may be followed by other bytes. -/

namespace BlockFilter.FooterBlock

open ByteReader

variable {input rest : Bytes}

/-! ## Metadata -/

theorem Metadata.word_eq_ok_iff {value : UInt32} :
    word input = .ok (value, rest) ↔ input = LittleEndian.uint32 value ++ rest := by
  rw [← uint32_run_eq_some_iff, word]
  split
  · rename_i result hRun
    rw [hRun, Option.some.injEq, Except.ok.injEq]
  · rename_i hRun
    rw [hRun]
    exact ⟨nofun, nofun⟩

theorem Metadata.choose_eq_ok_iff {α : Type} {choices : List α} {index : UInt32} {choice : α} :
    choose choices index = .ok choice ↔ choices[index.toNat]? = some choice := by
  rw [choose]
  split
  · rename_i found hFound
    rw [hFound, Option.some.injEq, Except.ok.injEq]
  · rename_i hNone
    rw [hNone]
    exact ⟨nofun, nofun⟩

/-- Distinct choices are told apart by their numbers. -/
theorem choice_iff {α : Type} {choices : List α} {number : α → UInt32} (hNodup : choices.Nodup)
    (hNumber : ∀ choice, choices[(number choice).toNat]? = some choice) {index : UInt32}
    {choice : α} : choices[index.toNat]? = some choice ↔ index = number choice := by
  constructor
  · intro h
    obtain ⟨hIndex, _⟩ := List.getElem?_eq_some_iff.mp h
    have hSame := (List.getElem?_inj hIndex hNodup).mp (h.trans (hNumber choice).symm)
    exact UInt32.toNat.inj hSame
  · intro h
    rw [h, hNumber]

theorem kind_choice_iff {index : UInt32} {kind : FilterKind} :
    [FilterKind.bloom, .hybrid, .bounds][index.toNat]? = some kind ↔ index = kindIndex kind :=
  choice_iff (by decide) (fun kind => by cases kind <;> rfl)

theorem input_choice_iff {index : UInt32} {positionInput : PositionInput} :
    [PositionInput.keyHash, .ordinal][index.toNat]? = some positionInput ↔
      index = inputIndex positionInput :=
  choice_iff (by decide) (fun positionInput => by cases positionInput <;> rfl)

/-- Metadata are read from every input that starts with their stored form. -/
theorem Metadata.ofBytes_eq_ok_iff {metadata : Metadata} :
    ofBytes input = .ok metadata ↔ ∃ rest, input = metadata.toBytes ++ rest := by
  simp only [ofBytes, bind_eq_ok_iff, word_eq_ok_iff, choose_eq_ok_iff, kind_choice_iff,
    input_choice_iff, Prod.exists]
  constructor
  · intro h
    obtain ⟨_, _, rfl, kind, rfl, bloomBytes, _, rfl, _, rest, rfl, positionInput, rfl, h⟩ := h
    cases h
    exact ⟨rest, by simp only [toBytes, List.append_assoc]⟩
  · intro h
    obtain ⟨rest, rfl⟩ := h
    simp only [toBytes, List.append_assoc]
    exact ⟨_, _, rfl, _, rfl, _, _, rfl, _, _, rfl, _, rfl, rfl⟩

/-! ## Header and sections -/

/-- The stored form of a header. -/
def Header.toBytes (header : Header) : Bytes :=
  header.magic ++ LittleEndian.ofNat 2 header.version ++
    LittleEndian.ofNat 4 header.metadataBytes ++ LittleEndian.ofNat 4 header.payloadBytes

/-- The fields of a header fit their widths. -/
structure Header.Fits (header : Header) : Prop where
  magic : header.magic.length = 4
  version : header.version < LittleEndian.size 2
  metadataBytes : header.metadataBytes < LittleEndian.size 4
  payloadBytes : header.payloadBytes < LittleEndian.size 4

theorem Header.length_toBytes {header : Header} (h : header.Fits) :
    header.toBytes.length = headerBytes := by
  simp only [toBytes, List.length_append, LittleEndian.length_ofNat, h.magic, headerBytes]

/-- A header is read only where a footer can follow. -/
theorem Header.reader_run_eq_some_iff {header : Header} :
    reader.run input = some (header, rest) ↔
      header.Fits ∧ footerBytes ≤ rest.length ∧ input = header.toBytes ++ rest := by
  simp only [reader, bind_run_eq_some_iff, pure_run_eq_some_iff, bytes_run_eq_some_iff,
    number_run_eq_some_iff, ensure_run_eq_some_iff]
  constructor
  · intro h
    obtain ⟨_, _, ⟨hEnough, rfl⟩, magic, _, ⟨hMagic, rfl⟩, version, _, ⟨hVersion, rfl⟩,
      metadataBytes, _, ⟨hMetadata, rfl⟩, payloadBytes, _, ⟨hPayload, rfl⟩, rfl, rfl⟩ := h
    have hFits : Fits ⟨magic, version, metadataBytes, payloadBytes⟩ :=
      ⟨hMagic, hVersion, hMetadata, hPayload⟩
    refine ⟨hFits, ?_, by simp only [toBytes, List.append_assoc]⟩
    simp only [List.length_append, LittleEndian.length_ofNat, hMagic, headerBytes] at hEnough
    omega
  · intro h
    obtain ⟨hFits, hFooter, rfl⟩ := h
    refine ⟨(), _, ⟨?_, rfl⟩, header.magic, _, ⟨hFits.magic, ?_⟩, header.version, _,
      ⟨hFits.version, rfl⟩, header.metadataBytes, _, ⟨hFits.metadataBytes, rfl⟩,
      header.payloadBytes, _, ⟨hFits.payloadBytes, rfl⟩, rfl, rfl⟩
    · rw [List.length_append, length_toBytes hFits]
      omega
    · simp only [toBytes, List.append_assoc]

/-- The stored form of the sections, without the checksum. -/
theorem Sections.reader_run_eq_some_iff {header : Header} {sections : Sections} :
    (reader header).run input = some (sections, rest) ↔
      sections.metadata.length = header.metadataBytes ∧
        sections.payload.length = header.payloadBytes ∧
        input = sections.metadata ++ sections.payload ++
          LittleEndian.uint32 sections.checksum ++ rest := by
  simp only [reader, bind_run_eq_some_iff, pure_run_eq_some_iff, bytes_run_eq_some_iff,
    uint32_run_eq_some_iff]
  constructor
  · intro h
    obtain ⟨metadata, _, ⟨hMetadata, rfl⟩, payload, _, ⟨hPayload, rfl⟩, checksum, _, rfl, rfl,
      rfl⟩ := h
    exact ⟨hMetadata, hPayload, by simp only [List.append_assoc]⟩
  · intro h
    obtain ⟨hMetadata, hPayload, rfl⟩ := h
    simp only [List.append_assoc]
    exact ⟨_, _, ⟨hMetadata, rfl⟩, _, _, ⟨hPayload, rfl⟩, _, _, rfl, rfl, rfl⟩

/-! ## Payload -/

/-- What metadata say about the filter in the payload. Without a position model the position input
may be any. -/
structure Metadata.Describes (metadata : Metadata) (filter : TableFilter) : Prop where
  kind : filter.kind = metadata.kind
  bloomBytes : filter.bloomBytes = metadata.bloomBytes.toNat
  positionInput : ∀ input ∈ filter.positionInput?, input = metadata.positionInput

theorem readPayload_eq_ok_iff {metadata : Metadata} {payload : Bytes} {filter : TableFilter} :
    readPayload metadata payload = .ok filter ↔
      metadata.Describes filter ∧ ∃ rest, payload = filter.toBytes ++ rest := by
  have hSize : metadata.bloomBytes.toNat < UInt32.size := metadata.bloomBytes.toNat_lt_size
  obtain ⟨kind, bloomBytes, positionInput⟩ := metadata
  cases kind with
  | bloom =>
      simp only [readPayload, map_readOr_eq_ok_iff, TableFilter.bloomReader_run_eq_some_iff,
        exists_and_left]
      constructor
      · intro h
        obtain ⟨hKind, hBytes, hPayload⟩ := h
        refine ⟨⟨hKind, hBytes, ?_⟩, hPayload⟩
        intro input hInput
        cases filter with
        | bloom => cases hInput
        | hybrid => cases hKind
        | bounds => cases hInput
      · intro h
        exact ⟨h.1.kind, h.1.bloomBytes, h.2⟩
  | hybrid =>
      have hFits : bloomBytes.toNat + LearnedIndex.trailerBytes < UInt64.size := by
        simp only [UInt32.size, UInt64.size, LearnedIndex.trailerBytes,
          FittedLine.sizeBytes] at hSize ⊢
        omega
      simp only [readPayload, map_eq_ok_iff, LearnedIndex.ofBytes_eq_ok_iff, hFits, true_and]
      constructor
      · intro h
        obtain ⟨index, ⟨hBytes, hPayload⟩, rfl⟩ := h
        refine ⟨⟨rfl, hBytes, ?_⟩, hPayload⟩
        intro input hInput
        exact (Option.some.inj hInput).symm
      · intro h
        obtain ⟨⟨hKind, hBytes, hInput⟩, hPayload⟩ := h
        cases filter with
        | bloom => cases hKind
        | bounds => cases hKind
        | hybrid index input =>
            cases hInput input rfl
            exact ⟨index, ⟨hBytes, hPayload⟩, rfl⟩
  | bounds =>
      have hFits : bloomBytes.toNat + SpanFilter.trailerBytes < UInt64.size := by
        simp only [UInt32.size, UInt64.size, SpanFilter.trailerBytes] at hSize ⊢
        omega
      simp only [readPayload, map_eq_ok_iff, SpanFilter.ofBytes_eq_ok_iff, hFits, true_and]
      constructor
      · intro h
        obtain ⟨bounds, ⟨hBytes, hPayload⟩, rfl⟩ := h
        refine ⟨⟨rfl, hBytes, ?_⟩, hPayload⟩
        intro input hInput
        cases hInput
      · intro h
        obtain ⟨⟨hKind, hBytes, _⟩, hPayload⟩ := h
        cases filter with
        | bloom => cases hKind
        | hybrid => cases hKind
        | bounds bounds => exact ⟨bounds, ⟨hBytes, hPayload⟩, rfl⟩

/-! ## Blocks -/

/-- The metadata that writing gives a filter. -/
def Metadata.written (filter : TableFilter) : Metadata :=
  ⟨filter.kind, UInt32.ofNat filter.bloomBytes, filter.positionInput?.getD .keyHash⟩

theorem Metadata.ofFilter_eq_ok_iff {filter : TableFilter} {metadata : Metadata} :
    ofFilter filter = .ok metadata ↔
      filter.bloomBytes < UInt32.size ∧ metadata = written filter := by
  rw [ofFilter]
  split
  · rename_i hLarge
    exact ⟨nofun, fun h => absurd h.1 (Nat.not_lt_of_le hLarge)⟩
  · rename_i hFits
    exact ⟨fun h => ⟨Nat.lt_of_not_le hFits, (Except.ok.inj h).symm⟩, fun h => h.2 ▸ rfl⟩

/-- Writing tells a filter apart by its metadata. -/
theorem Metadata.describes_written {filter : TableFilter} (h : filter.bloomBytes < UInt32.size) :
    (written filter).Describes filter := by
  refine ⟨rfl, (UInt32.toNat_ofNat_of_lt' h).symm, ?_⟩
  intro input hInput
  rw [written, Option.mem_def.mp hInput, Option.getD_some]

/-- A block is written for every filter whose bit array has a 32-bit size. -/
theorem encode_eq_ok_iff {filter : TableFilter} {block : Bytes} :
    encode filter = .ok block ↔ filter.bloomBytes < UInt32.size ∧
      block = assemble (Metadata.written filter).toBytes filter.toBytes := by
  simp only [encode, bind_eq_ok_iff, mapError_eq_ok_iff, Metadata.ofFilter_eq_ok_iff]
  constructor
  · intro h
    obtain ⟨metadata, ⟨hFits, rfl⟩, h⟩ := h
    cases h
    exact ⟨hFits, rfl⟩
  · intro h
    obtain ⟨hFits, rfl⟩ := h
    exact ⟨_, ⟨hFits, rfl⟩, rfl⟩

theorem Header.check_eq_ok_iff {header : Header} {result : Unit} :
    header.check = .ok result ↔
      header.magic = FooterBlock.magic ∧ header.version = FooterBlock.version := by
  rw [check]
  split
  · rename_i hMagic
    exact ⟨nofun, fun h => absurd h.1 hMagic⟩
  · rename_i hMagic
    split
    · rename_i hVersion
      exact ⟨nofun, fun h => absurd h.2 hVersion⟩
    · rename_i hVersion
      exact ⟨fun _ => ⟨Decidable.not_not.mp hMagic, Decidable.not_not.mp hVersion⟩, fun _ => rfl⟩

theorem Sections.check_eq_ok_iff {sections : Sections} {result : Unit} :
    sections.check = .ok result ↔
      sections.checksum = Crc32.checksum (sections.metadata ++ sections.payload) := by
  rw [check]
  split
  · rename_i hChecksum
    exact ⟨nofun, fun h => absurd h hChecksum⟩
  · rename_i hChecksum
    exact ⟨fun _ => Decidable.not_not.mp hChecksum, fun _ => rfl⟩

/-- The filter in a block is the one that its two sections describe. -/
theorem decode_eq_ok_iff {filter : TableFilter} :
    decode input = .ok filter ↔ ∃ metadataBytes payload rest metadata,
      input = assemble metadataBytes payload ++ rest ∧
        metadataBytes.length < LittleEndian.size 4 ∧ payload.length < LittleEndian.size 4 ∧
        Metadata.ofBytes metadataBytes = .ok metadata ∧
        readPayload metadata payload = .ok filter := by
  simp only [decode, bind_eq_ok_iff, mapError_eq_ok_iff, readOr_eq_ok_iff, Prod.exists,
    Header.reader_run_eq_some_iff, Sections.reader_run_eq_some_iff, Header.check_eq_ok_iff,
    Sections.check_eq_ok_iff]
  constructor
  · intro h
    obtain ⟨header, _, ⟨hFits, hFooter, rfl⟩, _, ⟨hMagic, hVersion⟩, sections, rest,
      ⟨hMetadata, hPayload, rfl⟩, _, hChecksum, metadata, hOf, hRead⟩ := h
    refine ⟨sections.metadata, sections.payload, rest, metadata, ?_, ?_, ?_, hOf, hRead⟩
    · simp only [assemble, Header.toBytes, hMagic, hVersion, hMetadata, hPayload, hChecksum,
        List.append_assoc]
    · exact hMetadata ▸ hFits.metadataBytes
    · exact hPayload ▸ hFits.payloadBytes
  · intro h
    obtain ⟨metadataBytes, payload, rest, metadata, rfl, hMetadata, hPayload, hOf, hRead⟩ := h
    let header : Header := ⟨magic, version, metadataBytes.length, payload.length⟩
    let checksum := Crc32.checksum (metadataBytes ++ payload)
    have hVersion : version < LittleEndian.size 2 := by decide
    refine ⟨header, metadataBytes ++ payload ++ LittleEndian.uint32 checksum ++ rest,
      ⟨⟨rfl, hVersion, hMetadata, hPayload⟩, ?_, ?_⟩, (), ⟨rfl, rfl⟩,
      ⟨metadataBytes, payload, checksum⟩, rest, ⟨rfl, rfl, rfl⟩, (), rfl, metadata, hOf, hRead⟩
    · simp only [List.length_append, LittleEndian.length_uint32, footerBytes]
      omega
    · simp only [assemble, Header.toBytes, List.append_assoc, header, checksum]

end BlockFilter.FooterBlock
