import BlockFilter.Proofs.FooterDamage
import BlockFilter.Proofs.FooterRoundTrip

/-! Canonical blocks. A block that is accepted may hold bytes that play no part: behind its
metadata, behind the stored form of its filter, behind the checksum, and in the position input of a
variant without a position model. Writing the filter again leaves them out. So it gives the shortest
block that is read as the filter, and a block without such bytes is written as it stands. -/

namespace BlockFilter.FooterBlock

open Offset

variable {filter : TableFilter} {metadata : Metadata} {block slack slack' : Bytes}

/-! ## What a block states -/

/-- The lengths of both sections and the position input, which stand at fixed places. -/
structure States (block : Bytes) (metadataBytes payloadBytes : Nat)
    (positionInput : PositionInput) : Prop where
  metadataBytes : number? block 6 4 = some metadataBytes
  payloadBytes : number? block 10 4 = some payloadBytes
  positionInput : uint32? block 22 = some (inputIndex positionInput)

theorem states_assemble {payload : Bytes} (rest : Bytes)
    (hMetadata : (metadata.toBytes ++ slack).length < UInt32.size)
    (hPayload : payload.length < UInt32.size) :
    States (assemble (metadata.toBytes ++ slack) payload ++ rest)
      (metadata.toBytes ++ slack).length payload.length metadata.positionInput := by
  let front := magic ++ LittleEndian.ofNat 2 version
  let metadataBytes := LittleEndian.ofNat 4 (metadata.toBytes ++ slack).length
  let payloadBytes := LittleEndian.ofNat 4 payload.length
  let kindAndSize := LittleEndian.uint32 (kindIndex metadata.kind) ++
    LittleEndian.uint32 metadata.bloomBytes
  let positionInput := LittleEndian.uint32 (inputIndex metadata.positionInput)
  let sum := LittleEndian.uint32 (Crc32.checksum (metadata.toBytes ++ slack ++ payload))
  let after := slack ++ payload ++ sum ++ rest
  have hBlock : assemble (metadata.toBytes ++ slack) payload ++ rest =
      front ++ metadataBytes ++ payloadBytes ++ kindAndSize ++ positionInput ++ after := by
    simp only [assemble, Metadata.toBytes, front, metadataBytes, payloadBytes, kindAndSize,
      positionInput, sum, after, List.append_assoc]
  have hWidth : LittleEndian.size 4 = UInt32.size := by decide
  rw [← hWidth] at hMetadata hPayload
  have hFirst : front.length = 6 := rfl
  have hSecond : (front ++ metadataBytes).length = 10 := rfl
  have hThird : (front ++ metadataBytes ++ payloadBytes ++ kindAndSize).length = 22 := rfl
  rw [hBlock]
  refine ⟨?_, ?_, ?_⟩
  · have hAt := number?_append hFirst hMetadata
      (payloadBytes ++ kindAndSize ++ positionInput ++ after)
    simpa only [List.append_assoc] using hAt
  · have hAt := number?_append hSecond hPayload (kindAndSize ++ positionInput ++ after)
    simpa only [List.append_assoc] using hAt
  · have hAt := uint32?_append hThird (inputIndex metadata.positionInput) after
    simpa only [List.append_assoc] using hAt

/-! ## Canonical blocks -/

/-- Metadata that describe a filter are the ones that are written for it, but for the position input
of a variant without a position model. -/
theorem Metadata.Describes.eq_written_iff (h : metadata.Describes filter) :
    metadata = written filter ↔ (filter.kind ≠ .hybrid → metadata.positionInput = .keyHash) := by
  have hSame : metadata = written filter ↔
      metadata.positionInput = filter.positionInput?.getD .keyHash := by
    have hBytes : UInt32.ofNat filter.bloomBytes = metadata.bloomBytes := by
      rw [h.bloomBytes, UInt32.ofNat_toNat]
    rw [written, hBytes, h.kind]
    obtain ⟨kind, bloomBytes, positionInput⟩ := metadata
    simp only [Metadata.mk.injEq, true_and]
  rw [hSame]
  cases filter with
  | bloom filter lastBlock keyCount =>
      have hKind : FilterKind.bloom ≠ .hybrid := by decide
      exact ⟨fun hInput _ => hInput, fun hInput => hInput hKind⟩
  | hybrid index input =>
      exact ⟨fun _ hOther => absurd rfl hOther, fun _ => (h.positionInput input rfl).symm⟩
  | bounds bounds =>
      have hKind : FilterKind.bounds ≠ .hybrid := by decide
      exact ⟨fun hInput _ => hInput, fun hInput => hInput hKind⟩

/-- The canonical block leaves out all that plays no part. -/
theorem assemble_written_eq_iff {rest : Bytes} :
    assemble (Metadata.written filter).toBytes filter.toBytes =
        assemble (metadata.toBytes ++ slack) (filter.toBytes ++ slack') ++ rest ↔
      slack = [] ∧ slack' = [] ∧ rest = [] ∧ metadata = Metadata.written filter := by
  constructor
  · intro hSame
    have hLength := congrArg List.length hSame
    simp only [List.length_append, assemble_length, Metadata.toBytes_length] at hLength
    have hMetadata : Metadata.written filter = metadata := by
      have hAfter := congrArg (List.drop headerBytes) hSame
      rw [drop_assemble_append, ← List.append_nil (assemble ..), drop_assemble_append] at hAfter
      simp only [bodyAndFooter, List.append_assoc] at hAfter
      exact Metadata.eq_of_prefix ⟨[], by rw [List.append_nil, hAfter]⟩
    refine ⟨List.length_eq_zero_iff.mp ?_, List.length_eq_zero_iff.mp ?_,
      List.length_eq_zero_iff.mp ?_, hMetadata.symm⟩
    · omega
    · omega
    · omega
  · intro hParts
    obtain ⟨rfl, rfl, rfl, hMetadata⟩ := hParts
    simp only [hMetadata, List.append_nil]

/-- A filter that was read is written as a canonical block. That is no longer than the block that
was read and is read as the same filter, so it is written again as it stands. It is the block that
was read exactly where the block ends with its checksum, the lengths that it states are those of the
metadata and of the stored form, and the position input of a variant without a position model is the
hash. -/
theorem exists_canonical_of_decode (hDecode : decode block = .ok filter) :
    ∃ canonical, encode filter = .ok canonical ∧ canonical.length = 30 + filter.sizeBytes ∧
      canonical.length ≤ block.length ∧ decode canonical = .ok filter ∧
      ∃ metadataBytes payloadBytes positionInput,
        States block metadataBytes payloadBytes positionInput ∧
        (canonical = block ↔ block.length = 14 + metadataBytes + payloadBytes + 4 ∧
          metadataBytes = 12 ∧ payloadBytes = filter.sizeBytes ∧
          (filter.kind ≠ .hybrid → positionInput = .keyHash)) := by
  obtain ⟨metadata, slack, slack', rest, hDescribes, hMetadata, hPayload, rfl⟩ :=
    exists_assemble_of_decode hDecode
  have hSize : filter.sizeBytes < UInt32.size := by
    rw [List.length_append, TableFilter.toBytes_length] at hPayload
    omega
  have hBloom := Nat.lt_of_le_of_lt filter.bloomBytes_le_sizeBytes hSize
  have hEncode := encode_eq_ok_iff.mpr ⟨hBloom, rfl⟩
  have hLength := length_of_encode hEncode
  have hAgain := decode_of_encode hEncode hSize
  refine ⟨_, hEncode, ?_, ?_, hAgain, _, _, _, states_assemble rest hMetadata hPayload, ?_⟩
  · rw [hLength, headerBytes, footerBytes]
    omega
  · simp only [List.length_append, assemble_length, Metadata.toBytes_length]
    omega
  · rw [assemble_written_eq_iff, hDescribes.eq_written_iff]
    simp only [List.length_append, assemble_length, Metadata.toBytes_length,
      TableFilter.toBytes_length, headerBytes, footerBytes, ← List.length_eq_zero_iff,
      Nat.add_eq_left]
    constructor
    · intro h
      obtain ⟨hSlack, hSlack', hRest, hInput⟩ := h
      exact ⟨hRest, hSlack, hSlack', hInput⟩
    · intro h
      obtain ⟨hRest, hSlack, hSlack', hInput⟩ := h
      exact ⟨hSlack, hSlack', hRest, hInput⟩

/-- A block with a byte to spare behind either section and behind the checksum, and with ranks as
the position input of a variant without a position model. -/
theorem exists_canonical_of_decode_spare :
    let filter : TableFilter := .bloom ⟨#[129], 3⟩ 7 2
    let block : Bytes := [65, 75, 86, 70, 1, 0, 13, 0, 0, 0, 11, 0, 0, 0, 0, 0, 0, 0, 1, 0, 0,
      0, 1, 0, 0, 0, 9, 129, 3, 7, 0, 0, 0, 2, 0, 0, 0, 5, 28, 193, 244, 198, 1]
    decode block = .ok filter ∧ ∃ canonical, encode filter = .ok canonical ∧
      canonical.length = 40 ∧ canonical.length ≤ block.length ∧
      decode canonical = .ok filter ∧ canonical ≠ block := by
  intro filter block
  have hDecode : decode block = .ok filter := by decide +kernel
  obtain ⟨canonical, hEncode, hLength, hShorter, hAgain, _, _, _, hStates, hSame⟩ :=
    exists_canonical_of_decode hDecode
  refine ⟨hDecode, canonical, hEncode, hLength, hShorter, hAgain, ?_⟩
  intro hCanonical
  have hTwelve := (hSame.mp hCanonical).2.1
  have hThirteen : number? block 6 4 = some 13 := by decide
  rw [hStates.metadataBytes, hTwelve] at hThirteen
  cases hThirteen

end BlockFilter.FooterBlock
