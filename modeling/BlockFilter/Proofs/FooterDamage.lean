import BlockFilter.Proofs.BurstDetection
import BlockFilter.Proofs.FooterRoundTrip
import BlockFilter.Proofs.WrittenBlocks

/-! Damage to a footer block. The checksum covers the two sections and not the header, and yet no
other header is accepted in front of the same sections: the metadata state how long the payload is
at the least, and a block leaves no room for more. A block that is cut off states how long it should
be, and a burst across the sections and the footer is caught by the checksum. The header has 32 bits
for the length of the stored form, though. Where that does not suffice the block is refused as it
stands, and what it states of its length and where its checksum is looked for are wrong. -/

namespace BlockFilter.FooterBlock

variable {filter other : TableFilter} {block input : Bytes}

/-! ## Other headers and front parts -/

theorem take_take_of_encode (hEncode : encode filter = .ok block) {n : Nat} (hn : 18 ≤ n) :
    (block.take n).take headerBytes = (Header.written filter).toBytes := by
  rw [List.take_take, Nat.min_eq_left (by rw [headerBytes]; omega), take_of_encode hEncode]

/-- A front part of a block states the length that its header has for the whole. -/
theorem decode_take_of_encode (hEncode : encode filter = .ok block) {n : Nat}
    (hn : n < (Header.written filter).blockBytes) :
    decode (block.take n) =
      .error (.truncated (if n < 18 then 18 else (Header.written filter).blockBytes) n) := by
  have hLength : (block.take n).length = n := by
    rw [List.length_take, Nat.min_eq_left]
    exact Nat.le_of_lt (Nat.lt_of_lt_of_le hn (blockBytes_le_of_encode hEncode))
  by_cases hShort : n < 18
  · have hNone : (block.take n).length < headerBytes + footerBytes := hLength.symm ▸ hShort
    rw [if_pos hShort, decode_of_length_lt hNone, hLength]
    rfl
  · have hHeader := header_run_of_take (take_take_of_encode hEncode (Nat.not_lt.mp hShort)) (by
      rw [hLength, headerBytes, footerBytes]
      omega)
    have hCut : (block.take n).length < (Header.written filter).blockBytes := hLength.symm ▸ hn
    rw [if_neg hShort,
      decode_of_length_lt_blockBytes hHeader (Header.check_written filter) hCut, hLength]

/-- A front part states the length of the whole block exactly where the stored form has a length that
fits the header, or where the part lacks the header. -/
theorem decode_take_iff (hEncode : encode filter = .ok block) {n : Nat} (hn : n < block.length) :
    decode (block.take n) = .error (.truncated (if n < 18 then 18 else block.length) n) ↔
      n < 18 ∨ filter.sizeBytes < UInt32.size := by
  have hStated := Header.blockBytes_written filter
  constructor
  · intro hFault
    by_contra hWrapped
    rw [not_or, Nat.not_lt, Nat.not_lt] at hWrapped
    obtain ⟨hHeader, hSize⟩ := hWrapped
    rw [if_neg (Nat.not_lt.mpr hHeader)] at hFault
    have hRest : filter.sizeBytes % UInt32.size < UInt32.size := Nat.mod_lt _ (by decide)
    rcases Nat.lt_or_ge n (Header.written filter).blockBytes with hCut | hEnough
    · -- The length that is stated is what is left of the true one in 32 bits.
      rw [decode_take_of_encode hEncode hCut, if_neg (Nat.not_lt.mpr hHeader)] at hFault
      have hWhole := (FilterError.truncated.inj (Except.error.inj hFault)).1
      rw [length_of_encode hEncode, headerBytes, footerBytes] at hWhole
      omega
    · -- Behind the stated length only the payload can be too short, and its length is told then.
      have hActual := actual_of_truncated (take_take_of_encode hEncode hHeader) (by
        rwa [List.length_take, Nat.min_eq_left (Nat.le_of_lt hn)]) hFault
      omega
  · rintro (hShort | hSize)
    · rw [decode_take_of_encode hEncode (by omega), if_pos hShort, if_pos hShort]
    · rw [← length_eq_of_encode hEncode hSize] at hn ⊢
      exact decode_take_of_encode hEncode hn

/-- No other header is accepted in front of the sections of a written block, and no part of the
block that lacks its end. A part of a block states the length of the whole, or 18 if it is shorter than
that, exactly where it is shorter or the stored form is shorter than 4 GiB, so that its length fits the
header. -/
theorem decode_rejects_header_and_front (hEncode : encode filter = .ok block) :
    (∀ header : Bytes, header.length = headerBytes → header ≠ block.take headerBytes →
      ∃ error, decode (header ++ block.drop headerBytes) = .error error) ∧
    ∀ n < block.length, (∃ error, decode (block.take n) = .error error) ∧
      (decode (block.take n) = .error (.truncated (if n < 18 then 18 else block.length) n) ↔
        n < 18 ∨ filter.sizeBytes < UInt32.size) := by
  constructor
  · intro header hLength hOther
    apply exists_error_of_not_ok
    intro other hDecode
    have hAfter : (header ++ block.drop headerBytes).drop headerBytes =
        block.drop headerBytes := List.drop_left' hLength
    have hSame := eq_of_decode_of_drop_prefix hEncode hDecode
      ⟨[], by rw [List.append_nil, hAfter]⟩
    have hHeader := congrArg (List.take headerBytes) hSame
    rw [List.take_left' hLength] at hHeader
    exact hOther hHeader
  · intro n hn
    refine ⟨exists_error_of_not_ok ?_, decode_take_iff hEncode hn⟩
    intro other hDecode
    have hAfter : (block.take n).drop headerBytes <+: block.drop headerBytes := by
      rw [List.drop_take]
      exact List.take_prefix ..
    have hSame := eq_of_decode_of_drop_prefix hEncode hDecode hAfter
    have hLength := congrArg List.length hSame
    rw [List.length_take, Nat.min_eq_left (Nat.le_of_lt hn)] at hLength
    exact Nat.ne_of_lt hn hLength

/-- A header that moves the boundary between the sections leaves the checksum right and is refused
all the same. -/
theorem decode_rejects_header_and_front_moved :
    let filter : TableFilter := .bloom ⟨#[129], 3⟩ 7 2
    let block : Bytes := [65, 75, 86, 70, 1, 0, 12, 0, 0, 0, 10, 0, 0, 0, 0, 0, 0, 0, 1, 0, 0, 0, 0,
      0, 0, 0, 129, 3, 7, 0, 0, 0, 2, 0, 0, 0, 105, 152, 253, 215]
    let moved : Bytes := [65, 75, 86, 70, 1, 0, 11, 0, 0, 0, 11, 0, 0, 0]
    encode filter = .ok block ∧
      (∃ error, decode (moved ++ block.drop headerBytes) = .error error) ∧
      decode (block.take 39) = .error (.truncated 40 39) := by
  intro filter block moved
  have hEncode : encode filter = .ok block := by decide +kernel
  obtain ⟨hHeaders, hFronts⟩ := decode_rejects_header_and_front hEncode
  exact ⟨hEncode, hHeaders moved rfl (by decide),
    (hFronts 39 (by decide)).2.mpr (.inr (by decide))⟩

/-- An index of no keys whose stored form is one byte too long for a 32-bit length. -/
def wideFilter : TableFilter := .hybrid ⟨.cleared 4294967263 1, .blank⟩ .keyHash

theorem bloomBytes_wideFilter : wideFilter.bloomBytes = 4294967263 := by
  simp only [wideFilter, TableFilter.bloomBytes, TableFilter.membership, Bloom.sizeBytes,
    Bloom.cleared, Array.size_replicate]

theorem sizeBytes_wideFilter : wideFilter.sizeBytes = UInt32.size := by
  rw [TableFilter.sizeBytes_eq, bloomBytes_wideFilter]
  rfl

theorem toBytes_wideFilter :
    wideFilter.toBytes = List.replicate 4294967263 0 ++ ([1] ++ FittedLine.blank.toBytes) := by
  simp only [wideFilter, TableFilter.toBytes, LearnedIndex.toBytes, Bloom.toBytes,
    Bloom.cleared, Array.toList_replicate, List.append_assoc]

theorem exists_encode_wideFilter :
    ∃ block, encode wideFilter = .ok block ∧ block.length = 4294967326 := by
  have hBloom : wideFilter.bloomBytes < UInt32.size := by
    rw [bloomBytes_wideFilter]
    decide
  have hEncode := encode_eq_ok_iff.mpr ⟨hBloom, rfl⟩
  refine ⟨_, hEncode, ?_⟩
  rw [length_of_encode hEncode, sizeBytes_wideFilter]
  rfl

/-- Its block states a stored form of no bytes, and so 30 bytes in all. -/
theorem decode_front_of_wideFilter :
    ∃ block, encode wideFilter = .ok block ∧ block.length = 4294967326 ∧
      decode (block.take 20) = .error (.truncated 30 20) := by
  obtain ⟨block, hEncode, hLength⟩ := exists_encode_wideFilter
  have hStated : (Header.written wideFilter).blockBytes = 30 := by
    rw [Header.blockBytes_written, sizeBytes_wideFilter, Nat.mod_self]
  have hFront := decode_take_of_encode hEncode (hStated.symm ▸ (by decide : 20 < 30))
  rw [hStated] at hFront
  exact ⟨block, hEncode, hLength, hFront⟩

/-! ## Bursts -/

variable {damaged : Bytes} {start : Nat}

/-- Kind and size of the bit array are far enough apart for one of them to stay. -/
theorem Metadata.kind_eq_or_bloomBytes_eq_of_burst {metadata written : Metadata}
    {rest restWritten : Bytes}
    (h : Burst (written.toBytes ++ restWritten) (metadata.toBytes ++ rest) start) :
    metadata.kind = written.kind ∨ metadata.bloomBytes = written.bloomBytes := by
  simp only [toBytes, List.append_assoc] at h
  rcases Nat.eq_zero_or_pos start with rfl | hStart
  · right
    have hAfter := h.drop_eq
    rw [Nat.zero_add, List.drop_left' (LittleEndian.length_uint32 _),
      List.drop_left' (LittleEndian.length_uint32 _)] at hAfter
    have hWord := word_eq_ok_iff.mpr hAfter
    rw [word_eq_ok_iff.mpr rfl] at hWord
    exact (Prod.ext_iff.mp (Except.ok.inj hWord)).1
  · left
    have hFirst := h.outside 0 (.inl hStart)
    have hByte : UInt8.ofNat (kindIndex metadata.kind).toNat =
        UInt8.ofNat (kindIndex written.kind).toNat := Option.some.inj hFirst
    revert hByte
    cases metadata.kind <;> cases written.kind <;> decide

/-- A stored form whose length does not fit the header is not read as another one. -/
theorem exists_error_of_burst_of_size_le (hEncode : encode filter = .ok block)
    (hBurst : Burst block damaged start) (hStart : headerBytes ≤ start)
    (hSize : UInt32.size ≤ filter.sizeBytes) : ∃ error, decode damaged = .error error := by
  apply exists_error_of_not_ok
  intro other hDecode
  have hBloom := (encode_eq_ok_iff.mp hEncode).1
  -- The header states what is left of the length, and the whole is too long by that much.
  have hStated : other.sizeBytes + UInt32.size ≤ filter.sizeBytes := by
    have hTake := (hBurst.take_eq hStart).trans (take_of_encode hEncode)
    have hRest := sizeBytes_le_of_decode hTake hDecode
    simp only [UInt32.size] at hRest hSize ⊢
    omega
  obtain ⟨metadata, slack, slack', rest, hDescribes, _, _, rfl⟩ :=
    exists_assemble_of_decode hDecode
  have hBody := hBurst.drop hStart
  rw [drop_assemble_append, drop_of_encode hEncode] at hBody
  simp only [bodyAndFooter, List.append_assoc] at hBody
  have hKinds := TableFilter.sizeBytes_eq other
  have hSizes := TableFilter.sizeBytes_eq filter
  -- Either way the bytes after the bit array would have to make up for 4 GiB.
  rcases Metadata.kind_eq_or_bloomBytes_eq_of_burst hBody with hKind | hSame
  · have hTrailer : other.kind = filter.kind := by
      rw [hDescribes.kind, hKind]
      rfl
    rw [hTrailer] at hKinds
    omega
  · have hBits : other.bloomBytes = filter.bloomBytes := by
      rw [hDescribes.bloomBytes, hSame, ← (Metadata.describes_written hBloom).bloomBytes]
    have hTrailer : filter.kind.trailerBytes ≤ 33 := by
      cases filter.kind <;> decide
    simp only [UInt32.size] at hStated
    omega

/-- A block is read as its own filter, and only where the length of the stored form fits the header. -/
theorem decode_eq_ok_iff_of_encode (hEncode : encode filter = .ok block) :
    decode block = .ok other ↔ other = filter ∧ filter.sizeBytes < UInt32.size := by
  constructor
  · intro hDecode
    rcases Nat.lt_or_ge filter.sizeBytes UInt32.size with hSize | hSize
    · rw [decode_of_encode hEncode hSize] at hDecode
      exact ⟨(Except.ok.inj hDecode).symm, hSize⟩
    · obtain ⟨_, hFault⟩ := exists_error_of_burst_of_size_le hEncode (Burst.refl block headerBytes)
        (Nat.le_refl _) hSize
      exact nomatch hDecode.symm.trans hFault
  · rintro ⟨rfl, hSize⟩
    exact decode_of_encode hEncode hSize

/-- A burst in a block whose stored form fits the header is told by the checksum. -/
theorem not_checksummed_of_burst (hEncode : encode filter = .ok block)
    (hBurst : Burst block damaged start) (hStart : headerBytes ≤ start) (hDiff : damaged ≠ block)
    (hSize : filter.sizeBytes < UInt32.size) : ¬Checksummed filter damaged := by
  have hHeader := hBurst.take_eq hStart
  have hBody := hBurst.drop hStart
  have hOther : damaged.drop headerBytes ≠ block.drop headerBytes := by
    intro hSame
    apply hDiff
    rw [← List.take_append_drop headerBytes damaged, hHeader, hSame, List.take_append_drop]
  have hLength : (Header.written filter).blockBytes = damaged.length := by
    rw [length_eq_of_encode hEncode hSize, hBurst.length_eq]
  obtain ⟨sections, trailing, hCheck, hMetadata, hPayload, hDamaged, _⟩ :=
    exists_sections_of_take (hHeader.trans (take_of_encode hEncode)) (Nat.le_of_eq hLength)
  have hTrailing : trailing = [] := by
    have hAfter := congrArg List.length hDamaged
    simp only [List.length_drop, List.length_append, LittleEndian.length_uint32, hMetadata, hPayload,
      ← hLength, Header.blockBytes_written, headerBytes] at hAfter
    exact List.length_eq_zero_iff.mp (by omega)
  rw [hDamaged, hTrailing, List.append_nil, drop_of_encode hEncode] at hBody hOther
  rw [hCheck, Sections.check_eq_ok_iff]
  exact Crc32.ne_checksum_of_burst hBody hOther

/-- No burst behind the header of a written block is accepted, whether it lies in the metadata, in
the payload, in the checksum or across them. It is refused as corrupted, by the checksum, exactly
where the length of the stored form fits the header or the burst has not put the right checksum to the
place where a shorter stored form would end. -/
theorem decode_rejects_burst (hEncode : encode filter = .ok block)
    (hBurst : Burst block damaged start) (hStart : headerBytes ≤ start) (hDiff : damaged ≠ block) :
    (∃ error, decode damaged = .error error) ∧
      ((∃ fault, decode damaged = .error (.corrupted fault)) ↔
        filter.sizeBytes < UInt32.size ∨ ¬Checksummed filter damaged) ∧
      (filter.sizeBytes < UInt32.size → ∃ stored computed,
        decode damaged = .error (.corrupted (.checksumMismatch stored computed))) := by
  have hTake := (hBurst.take_eq hStart).trans (take_of_encode hEncode)
  have hEnough : (Header.written filter).blockBytes ≤ damaged.length := by
    rw [hBurst.length_eq]
    exact blockBytes_le_of_encode hEncode
  have hSum := not_checksummed_of_burst hEncode hBurst hStart hDiff
  refine ⟨?_, ?_, fun hSize => decode_of_not_checksummed hTake hEnough (hSum hSize)⟩
  · rcases Nat.lt_or_ge filter.sizeBytes UInt32.size with hSize | hSize
    · obtain ⟨_, _, hFault⟩ := decode_of_not_checksummed hTake hEnough (hSum hSize)
      exact ⟨_, hFault⟩
    · exact exists_error_of_burst_of_size_le hEncode hBurst hStart hSize
  · rw [exists_corrupted_iff hTake hEnough]
    exact ⟨.inr, fun h => h.elim hSum id⟩

/-- A burst that reaches from the payload into the checksum. -/
theorem decode_rejects_burst_across :
    let filter : TableFilter := .bloom ⟨#[129], 3⟩ 7 2
    let block : Bytes := [65, 75, 86, 70, 1, 0, 12, 0, 0, 0, 10, 0, 0, 0, 0, 0, 0, 0, 1, 0, 0, 0, 0,
      0, 0, 0, 129, 3, 7, 0, 0, 0, 2, 0, 0, 0, 105, 152, 253, 215]
    let damaged := (block.set 34 255).set 37 0
    encode filter = .ok block ∧ Burst block damaged 34 ∧ damaged ≠ block ∧
      ∃ stored computed,
        decode damaged = .error (.corrupted (.checksumMismatch stored computed)) := by
  intro filter block damaged
  have hEncode : encode filter = .ok block := by decide +kernel
  have hBurst : Burst block damaged 34 := by
    refine ⟨rfl, ?_⟩
    intro i hOutside
    rw [List.getElem?_set_ne (by omega), List.getElem?_set_ne (by omega)]
  have hDiff : damaged ≠ block := by decide
  obtain ⟨_, _, hFault⟩ := decode_rejects_burst hEncode hBurst (by decide) hDiff
  exact ⟨hEncode, hBurst, hDiff, hFault (by decide)⟩

/-- A block that states no bytes for its stored form is read up to the checksum of the metadata, and
then has no payload. -/
theorem decode_of_stated_zero (hBloom : filter.bloomBytes < UInt32.size)
    (hStated : filter.sizeBytes % UInt32.size = 0) (rest : Bytes) :
    decode ((Header.written filter).toBytes ++ ((Metadata.written filter).toBytes ++
      LittleEndian.uint32 (Crc32.checksum (Metadata.written filter).toBytes) ++ rest)) =
        .error (.truncated filter.sizeBytes 0) := by
  let metadata := (Metadata.written filter).toBytes
  let sections : Sections := ⟨metadata, [], Crc32.checksum metadata⟩
  have hFooter : footerBytes ≤ (metadata ++ LittleEndian.uint32 (Crc32.checksum metadata) ++
      rest).length := by
    rw [List.length_append, List.length_append, LittleEndian.length_uint32, footerBytes]
    omega
  have hHeader := Header.reader_run_eq_some_iff.mpr ⟨Header.fits_written filter, hFooter, rfl⟩
  have hSections : (Sections.reader (Header.written filter)).run (metadata ++
      LittleEndian.uint32 (Crc32.checksum metadata) ++ rest) = some (sections, rest) :=
    Sections.reader_run_eq_some_iff.mpr ⟨Metadata.toBytes_length _, hStated.symm, by
      simp only [sections, List.append_nil]⟩
  have hCheck : sections.check = .ok () := Sections.check_eq_ok_iff.mpr (by
    simp only [sections, List.append_nil])
  have hOf : Metadata.ofBytes sections.metadata = .ok (Metadata.written filter) :=
    Metadata.ofBytes_eq_ok_iff.mpr ⟨[], (List.append_nil _).symm⟩
  have hSize : (Metadata.written filter).bloomBytes.toNat +
      (Metadata.written filter).kind.trailerBytes = filter.sizeBytes := by
    rw [TableFilter.sizeBytes_eq, (Metadata.describes_written hBloom).bloomBytes]
    rfl
  have hShort : ([] : Bytes).length < (Metadata.written filter).bloomBytes.toNat +
      (Metadata.written filter).kind.trailerBytes := by
    cases (Metadata.written filter).kind <;> exact Nat.succ_pos _
  rw [decode_of_sections hHeader (Header.check_written filter) hSections, hCheck, hOf, ← hSize]
  exact readPayload_of_length_lt hShort

/-- A block is its header, the metadata, the stored form and the checksum. -/
theorem eq_append_of_encode (hEncode : encode filter = .ok block) :
    block = (Header.written filter).toBytes ++ (Metadata.written filter).toBytes ++
      (filter.toBytes ++ LittleEndian.uint32
        (Crc32.checksum ((Metadata.written filter).toBytes ++ filter.toBytes))) := by
  rw [← List.take_append_drop headerBytes block, take_of_encode hEncode, drop_of_encode hEncode,
    bodyAndFooter, List.append_assoc, List.append_assoc]

theorem length_front (filter : TableFilter) :
    ((Header.written filter).toBytes ++ (Metadata.written filter).toBytes).length = 26 := by
  rw [List.length_append, Header.length_toBytes (Header.fits_written filter),
    Metadata.toBytes_length, headerBytes]

theorem take_front_of_encode (hEncode : encode filter = .ok block) :
    block.take 26 = (Header.written filter).toBytes ++ (Metadata.written filter).toBytes := by
  rw [eq_append_of_encode hEncode, List.take_left' (length_front filter)]

theorem checksum_metadata_wideFilter :
    LittleEndian.uint32 (Crc32.checksum (Metadata.written wideFilter).toBytes) =
      [192, 200, 219, 131] := by
  have hMetadata : Metadata.written wideFilter = ⟨.hybrid, 4294967263, .keyHash⟩ := by
    rw [Metadata.written, bloomBytes_wideFilter]
    rfl
  rw [hMetadata]
  decide +kernel

theorem take_drop_of_wideFilter (hEncode : encode wideFilter = .ok block) :
    (block.drop 26).take 4 = [0, 0, 0, 0] := by
  have hSize : 4 ≤ (List.replicate 4294967263 (0 : UInt8)).length := by
    rw [List.length_replicate]
    decide
  rw [eq_append_of_encode hEncode, List.drop_left' (length_front wideFilter), toBytes_wideFilter,
    List.append_assoc, List.take_append_of_le_length hSize, List.take_replicate]
  rfl

/-- The metadata of this filter are followed by zeros. Four of them are replaced by the checksum of the
metadata, which is looked for there, and the block is not told to be corrupted. -/
theorem decode_burst_of_wideFilter :
    ∃ block, encode wideFilter = .ok block ∧
      let damaged := block.take 26 ++ [192, 200, 219, 131] ++ block.drop 30
      Burst block damaged 26 ∧ damaged ≠ block ∧
        decode damaged = .error (.truncated 4294967296 0) := by
  obtain ⟨block, hEncode, hBlock⟩ := exists_encode_wideFilter
  refine ⟨block, hEncode, ?_⟩
  intro damaged
  have hFront := take_front_of_encode hEncode
  refine ⟨Burst.of_window rfl (by rw [hBlock]; decide), ?_, ?_⟩
  · intro hSame
    have hWindow : (damaged.drop 26).take 4 = [192, 200, 219, 131] := by
      simp only [damaged, hFront]
      rw [List.append_assoc, List.drop_left' (length_front wideFilter)]
      rfl
    rw [hSame, take_drop_of_wideFilter hEncode] at hWindow
    exact absurd hWindow (by decide)
  · have hBloom : wideFilter.bloomBytes < UInt32.size := (encode_eq_ok_iff.mp hEncode).1
    have hStated : wideFilter.sizeBytes % UInt32.size = 0 := by
      rw [sizeBytes_wideFilter, Nat.mod_self]
    have hFault := decode_of_stated_zero hBloom hStated (block.drop 30)
    rw [sizeBytes_wideFilter, checksum_metadata_wideFilter, ← List.append_assoc,
      ← List.append_assoc, ← hFront] at hFault
    exact hFault

end BlockFilter.FooterBlock
