import BlockFilter.Proofs.FooterGrammar

/-! The round trip through footer blocks. Writing a filter and reading its block back gives the same
filter, bit for bit, and bytes after the block play no part. -/

namespace BlockFilter

theorem TableFilter.bloomBytes_le_sizeBytes (filter : TableFilter) :
    filter.bloomBytes ≤ filter.sizeBytes := by
  cases filter with
  | bloom filter lastBlock keyCount => exact Nat.le_add_right ..
  | hybrid index input => exact Nat.le_add_right ..
  | bounds bounds => exact Nat.le_add_right ..

namespace FooterBlock

variable {filter : TableFilter} {block : Bytes}

/-- The metadata of a written block read its payload. -/
theorem readPayload_written (h : filter.bloomBytes < UInt32.size) :
    readPayload (Metadata.written filter) filter.toBytes = .ok filter :=
  readPayload_eq_ok_iff.mpr ⟨Metadata.describes_written h, [], (List.append_nil _).symm⟩

/-- A payload with a 32-bit size is found again behind its metadata. -/
theorem decode_assemble_append (h : filter.sizeBytes < UInt32.size) (rest : Bytes) :
    decode (assemble (Metadata.written filter).toBytes filter.toBytes ++ rest) = .ok filter := by
  have hBloom := Nat.lt_of_le_of_lt filter.bloomBytes_le_sizeBytes h
  have hWidth : LittleEndian.size 4 = UInt32.size := by decide
  have hMetadata : Metadata.ofBytes (Metadata.written filter).toBytes =
      .ok (Metadata.written filter) :=
    Metadata.ofBytes_eq_ok_iff.mpr ⟨[], (List.append_nil _).symm⟩
  refine decode_eq_ok_iff.mpr ⟨_, _, rest, _, rfl, ?_, ?_, hMetadata, readPayload_written hBloom⟩
  · rw [Metadata.toBytes_length]
    decide
  · rw [TableFilter.toBytes_length, hWidth]
    exact h

theorem decode_of_encode (hEncode : encode filter = .ok block)
    (hSize : filter.sizeBytes < UInt32.size) : decode block = .ok filter := by
  have hDecode := decode_assemble_append hSize []
  rwa [List.append_nil, ← (encode_eq_ok_iff.mp hEncode).2] at hDecode

/-- A filter whose stored form has a 32-bit size is read back from its block, whatever follows the
block. A bit array below 512 MB leaves the stored form far below that size. -/
theorem exists_encode_decode_append (h : filter.sizeBytes < UInt32.size) :
    ∃ block, encode filter = .ok block ∧ ∀ rest, decode (block ++ rest) = .ok filter := by
  have hBloom := Nat.lt_of_le_of_lt filter.bloomBytes_le_sizeBytes h
  exact ⟨_, encode_eq_ok_iff.mpr ⟨hBloom, rfl⟩, decode_assemble_append h⟩

/-- A filter without bits comes back although its slope is a NaN and its intercept is minus zero. -/
theorem exists_encode_decode_nan :
    let line : FittedLine :=
      ⟨⟨0x7ff8000000000001⟩, ⟨0x8000000000000000⟩, -2147483648, 2147483647, 7, 0⟩
    let filter : TableFilter := .hybrid ⟨⟨#[], 255⟩, line⟩ .ordinal
    filter.sizeBytes < UInt32.size ∧
      ∃ block, encode filter = .ok block ∧ ∀ rest, decode (block ++ rest) = .ok filter :=
  ⟨by decide, exists_encode_decode_append (by decide)⟩

end FooterBlock

end BlockFilter
