import BlockFilter.Proofs.Outcomes
import BlockFilter.TableFilter

/-! Stored forms read back. A reader returns a value exactly on the inputs that start with the
stored form of that value, and hands on what follows. So a stored form keeps every bit of every
field, one value has one stored form, and bytes after it do no harm. -/

namespace BlockFilter

/-! ## Fields -/

namespace ByteReader

variable {input rest : Bytes}

/-- A reader made of two readers reads one after the other. -/
theorem bind_run_eq_some_iff {α β : Type} {reader : ByteReader α} {next : α → ByteReader β}
    {value : β} :
    (reader >>= next).run input = some (value, rest) ↔
      ∃ first middle, reader.run input = some (first, middle) ∧
        (next first).run middle = some (value, rest) := by
  rw [StateT.run_bind, Option.bind_eq_bind, Option.bind_eq_some_iff, Prod.exists]

theorem pure_run_eq_some_iff {α : Type} {value result : α} :
    (pure value : ByteReader α).run input = some (result, rest) ↔
      value = result ∧ input = rest := by
  rw [StateT.run_pure, Option.pure_def, Option.some.injEq, Prod.mk.injEq]

theorem bytes_run_eq_some_iff {count : Nat} {front : Bytes} :
    (bytes count).run input = some (front, rest) ↔
      front.length = count ∧ input = front ++ rest := by
  constructor
  · intro h
    obtain ⟨hInput, hLength⟩ := append_eq_of_bytes h
    exact ⟨hLength, hInput.symm⟩
  · intro h
    obtain ⟨hLength, rfl⟩ := h
    exact bytes_append front rest hLength

theorem ensure_run_eq_some_iff {count : Nat} {result : Unit} :
    (ensure count).run input = some (result, rest) ↔ count ≤ input.length ∧ input = rest := by
  rw [ensure_run]
  split
  · rename_i hEnough
    simp [hEnough]
  · rename_i hShort
    simp [hShort]

theorem number_run_eq_some_iff {width n : Nat} :
    (number width).run input = some (n, rest) ↔
      n < LittleEndian.size width ∧ input = LittleEndian.ofNat width n ++ rest := by
  constructor
  · intro h
    simp only [number, StateT.run_map, Option.map_eq_map, Option.map_eq_some_iff] at h
    obtain ⟨⟨front, tail⟩, hRead, hResult⟩ := h
    obtain ⟨rfl, rfl⟩ := bytes_run_eq_some_iff.mp hRead
    cases hResult
    exact ⟨LittleEndian.toNat_lt_size front, by rw [LittleEndian.ofNat_toNat]⟩
  · intro h
    obtain ⟨hFits, rfl⟩ := h
    exact number_append rest hFits

/-- The words of a type are the numbers of a width: what `ofNat` makes of a number of that width is
told by `toNat`, and back. -/
theorem word_run_eq_some_iff {α : Type} {ofNat : Nat → α} {toNat : α → Nat} {width : Nat} {word : α}
    (hOf : ∀ n < LittleEndian.size width, toNat (ofNat n) = n)
    (hTo : ∀ word, ofNat (toNat word) = word) (hLt : toNat word < LittleEndian.size width) :
    (ofNat <$> number width).run input = some (word, rest) ↔
      input = LittleEndian.ofNat width (toNat word) ++ rest := by
  constructor
  · intro h
    simp only [StateT.run_map, Option.map_eq_map, Option.map_eq_some_iff] at h
    obtain ⟨⟨n, tail⟩, hRead, hResult⟩ := h
    obtain ⟨hFits, rfl⟩ := number_run_eq_some_iff.mp hRead
    cases hResult
    rw [hOf n hFits]
  · intro h
    rw [h, StateT.run_map, number_append rest hLt]
    exact congrArg (fun value => some (value, rest)) (hTo word)

theorem uint8_run_eq_some_iff {byte : UInt8} :
    uint8.run input = some (byte, rest) ↔ input = [byte] ++ rest := by
  have hStored : LittleEndian.ofNat 1 byte.toNat = [byte] := by
    rw [LittleEndian.ofNat, LittleEndian.ofNat, UInt8.ofNat_toNat]
  rw [← hStored]
  exact word_run_eq_some_iff (fun _ hn => UInt8.toNat_ofNat_of_lt' hn) (fun _ => UInt8.ofNat_toNat)
    byte.toNat_lt

theorem uint32_run_eq_some_iff {word : UInt32} :
    uint32.run input = some (word, rest) ↔ input = LittleEndian.uint32 word ++ rest :=
  word_run_eq_some_iff (fun _ hn => UInt32.toNat_ofNat_of_lt' hn) (fun _ => UInt32.ofNat_toNat)
    word.toNat_lt

theorem uint64_run_eq_some_iff {word : UInt64} :
    uint64.run input = some (word, rest) ↔ input = LittleEndian.uint64 word ++ rest :=
  word_run_eq_some_iff (fun _ hn => UInt64.toNat_ofNat_of_lt' hn) (fun _ => UInt64.ofNat_toNat)
    word.toNat_lt

theorem int32_run_eq_some_iff {word : Int32} :
    int32.run input = some (word, rest) ↔ input = LittleEndian.int32 word ++ rest := by
  constructor
  · intro h
    simp only [int32, StateT.run_map, Option.map_eq_map, Option.map_eq_some_iff] at h
    obtain ⟨⟨word, tail⟩, hRead, hResult⟩ := h
    cases hResult
    exact uint32_run_eq_some_iff.mp hRead
  · intro h
    rw [h]
    exact int32_append word rest

end ByteReader

/-! ## Records -/

open ByteReader

variable {input rest : Bytes}

theorem Bloom.reader_run_eq_some_iff {size : Nat} {bloom : Bloom} :
    (reader size).run input = some (bloom, rest) ↔
      bloom.sizeBytes = size ∧ input = bloom.toBytes ++ rest := by
  simp only [reader, bind_run_eq_some_iff, pure_run_eq_some_iff, bytes_run_eq_some_iff,
    uint8_run_eq_some_iff]
  constructor
  · intro h
    obtain ⟨bits, _, ⟨hSize, rfl⟩, probes, _, rfl, rfl, rfl⟩ := h
    exact ⟨hSize, by simp only [toBytes, List.append_assoc]⟩
  · intro h
    obtain ⟨hSize, rfl⟩ := h
    obtain ⟨⟨bits⟩, probes⟩ := bloom
    exact ⟨bits, [probes] ++ rest, ⟨hSize, List.append_assoc ..⟩, probes, rest, rfl, rfl, rfl⟩

theorem FittedLine.reader_run_eq_some_iff {model : FittedLine} :
    reader.run input = some (model, rest) ↔ input = model.toBytes ++ rest := by
  simp only [reader, bind_run_eq_some_iff, pure_run_eq_some_iff, uint32_run_eq_some_iff,
    uint64_run_eq_some_iff, int32_run_eq_some_iff]
  constructor
  · intro h
    obtain ⟨slope, _, rfl, intercept, _, rfl, minError, _, rfl, maxError, _, rfl, lastBlock, _, rfl,
      keyCount, _, rfl, rfl, rfl⟩ := h
    simp only [toBytes, List.append_assoc]
  · intro h
    subst h
    simp only [toBytes, List.append_assoc]
    exact ⟨_, _, rfl, _, _, rfl, _, _, rfl, _, _, rfl, _, _, rfl, _, _, rfl, rfl, rfl⟩

theorem LearnedIndex.reader_run_eq_some_iff {size : Nat} {index : LearnedIndex} :
    (reader size).run input = some (index, rest) ↔
      index.filter.sizeBytes = size ∧ input = index.toBytes ++ rest := by
  simp only [reader, bind_run_eq_some_iff, pure_run_eq_some_iff, Bloom.reader_run_eq_some_iff,
    FittedLine.reader_run_eq_some_iff]
  constructor
  · intro h
    obtain ⟨filter, _, ⟨hSize, rfl⟩, model, _, rfl, rfl, rfl⟩ := h
    exact ⟨hSize, by simp only [toBytes, List.append_assoc]⟩
  · intro h
    obtain ⟨hSize, rfl⟩ := h
    exact ⟨_, _, ⟨hSize, List.append_assoc ..⟩, _, _, rfl, rfl, rfl⟩

theorem SpanFilter.reader_run_eq_some_iff {size : Nat} {bounds : SpanFilter} :
    (reader size).run input = some (bounds, rest) ↔
      bounds.filter.sizeBytes = size ∧ input = bounds.toBytes ++ rest := by
  simp only [reader, bind_run_eq_some_iff, pure_run_eq_some_iff, Bloom.reader_run_eq_some_iff,
    uint32_run_eq_some_iff]
  constructor
  · intro h
    obtain ⟨filter, _, ⟨hSize, rfl⟩, minHash, _, rfl, maxHash, _, rfl, numBlocks, _, rfl, keyCount,
      _, rfl, rfl, rfl⟩ := h
    exact ⟨hSize, by simp only [toBytes, List.append_assoc]⟩
  · intro h
    obtain ⟨hSize, rfl⟩ := h
    simp only [toBytes, List.append_assoc]
    exact ⟨_, _, ⟨hSize, rfl⟩, _, _, rfl, _, _, rfl, _, _, rfl, _, _, rfl, rfl, rfl⟩

/-- The reader of the Bloom variant returns this variant only. -/
theorem TableFilter.bloomReader_run_eq_some_iff {size : Nat} {filter : TableFilter} :
    (bloomReader size).run input = some (filter, rest) ↔
      filter.kind = .bloom ∧ filter.bloomBytes = size ∧ input = filter.toBytes ++ rest := by
  simp only [bloomReader, bind_run_eq_some_iff, pure_run_eq_some_iff, Bloom.reader_run_eq_some_iff,
    uint32_run_eq_some_iff]
  constructor
  · intro h
    obtain ⟨filter, _, ⟨hSize, rfl⟩, lastBlock, _, rfl, keyCount, _, rfl, rfl, rfl⟩ := h
    exact ⟨rfl, hSize, by simp only [toBytes, List.append_assoc]⟩
  · intro h
    obtain ⟨hKind, hSize, rfl⟩ := h
    cases filter with
    | bloom filter lastBlock keyCount =>
        simp only [toBytes, List.append_assoc]
        exact ⟨_, _, ⟨hSize, rfl⟩, _, _, rfl, _, _, rfl, rfl, rfl⟩
    | hybrid index positionInput => cases hKind
    | bounds bounds => cases hKind

/-- Bytes of a stored form after its bit array. -/
def FilterKind.trailerBytes : FilterKind → Nat
  | .bloom => 9
  | .hybrid => 33
  | .bounds => 17

theorem TableFilter.sizeBytes_eq (filter : TableFilter) :
    filter.sizeBytes = filter.bloomBytes + filter.kind.trailerBytes := by
  cases filter with
  | bloom filter lastBlock keyCount => rfl
  | hybrid index positionInput => rfl
  | bounds bounds => rfl

/-! ## Values at the front of a byte string -/

theorem readOr_eq_ok_iff {α : Type} {reader : ByteReader α} {expected actual : Nat}
    {result : α × Bytes} :
    readOr reader expected actual input = .ok result ↔ reader.run input = some result := by
  rw [readOr]
  split
  · rename_i found hRun
    rw [hRun, Option.some.injEq, Except.ok.injEq]
  · rename_i hRun
    rw [hRun]
    exact ⟨nofun, nofun⟩

/-- The value at the front is kept and what follows it is dropped. -/
theorem map_readOr_eq_ok_iff {α : Type} {reader : ByteReader α} {expected actual : Nat}
    {value : α} :
    (readOr reader expected actual input).map Prod.fst = .ok value ↔
      ∃ rest, reader.run input = some (value, rest) := by
  simp only [map_eq_ok_iff, readOr_eq_ok_iff, Prod.exists, exists_and_right, exists_eq_right]

/-- An index is read from every input that starts with its stored form, as long as the size of the
whole is a 64-bit number. -/
theorem LearnedIndex.ofBytes_eq_ok_iff {size : Nat} {index : LearnedIndex} :
    ofBytes input size = .ok index ↔ size + trailerBytes < UInt64.size ∧
      index.filter.sizeBytes = size ∧ ∃ rest, input = index.toBytes ++ rest := by
  rw [ofBytes]
  split
  · rename_i hLarge
    exact ⟨nofun, fun h => absurd h.1 (Nat.not_lt_of_le hLarge)⟩
  · rename_i hFits
    simp only [map_readOr_eq_ok_iff, reader_run_eq_some_iff, exists_and_left,
      Nat.lt_of_not_le hFits, true_and]

theorem SpanFilter.ofBytes_eq_ok_iff {size : Nat} {bounds : SpanFilter} :
    ofBytes input size = .ok bounds ↔ size + trailerBytes < UInt64.size ∧
      bounds.filter.sizeBytes = size ∧ ∃ rest, input = bounds.toBytes ++ rest := by
  rw [ofBytes]
  split
  · rename_i hLarge
    exact ⟨nofun, fun h => absurd h.1 (Nat.not_lt_of_le hLarge)⟩
  · rename_i hFits
    simp only [map_readOr_eq_ok_iff, reader_run_eq_some_iff, exists_and_left,
      Nat.lt_of_not_le hFits, true_and]

end BlockFilter
