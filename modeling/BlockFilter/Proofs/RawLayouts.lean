import BlockFilter.Proofs.Offsets

/-! Stored forms without a block around them. Nothing in such a form tells how long its bit array
is, so the reader is told from outside, and what it is told may be anything. The sizes alone decide
whether a value is read: every byte string that is long enough stands for a value, and that value is
written as the bytes that were read. -/

namespace BlockFilter

/-! ## Layouts -/

/-- A stored form that starts with a bit array, and what there is to ask about it. -/
structure RawLayout (α : Type) where
  filter : α → Bloom
  /-- Bytes after the bit array. -/
  trailerBytes : Nat
  toBytes : α → Bytes
  ofBytes : Bytes → Nat → Except FilterError α
  sizeBytes : α → Nat
  stats : α → Stats

namespace RawLayout

variable {α : Type}

/-- All figures of the size of a stored form agree. -/
structure Sized (layout : RawLayout α) : Prop where
  length_toBytes : ∀ value,
    (layout.toBytes value).length = (layout.filter value).sizeBytes + layout.trailerBytes
  sizeBytes : ∀ value,
    layout.sizeBytes value = (layout.filter value).sizeBytes + layout.trailerBytes
  totalBytes : ∀ value,
    (layout.stats value).totalBytes = (layout.filter value).sizeBytes + layout.trailerBytes
  parts : ∀ value, (layout.stats value).bloomBytes + (layout.stats value).modelBytes =
    (layout.filter value).sizeBytes + layout.trailerBytes

/-- Writing and reading undo each other, on all byte strings and on all values. -/
structure Exact (layout : RawLayout α) : Prop extends Sized layout where
  /-- A size that leaves no 64-bit number for the whole is refused whatever the bytes are. -/
  overflow : ∀ data size, UInt64.size ≤ size + layout.trailerBytes →
    layout.ofBytes data size = .error (.corrupted (.sizeOverflow size))
  truncated : ∀ data size, size + layout.trailerBytes < UInt64.size →
    data.length < size + layout.trailerBytes →
    layout.ofBytes data size = .error (.truncated (size + layout.trailerBytes) data.length)
  /-- Bytes that are long enough stand for a value, whatever they are. -/
  toBytes_of_read : ∀ data size, size + layout.trailerBytes < UInt64.size →
    size + layout.trailerBytes ≤ data.length →
    ∃ value, layout.ofBytes data size = .ok value ∧ (layout.filter value).sizeBytes = size ∧
      layout.toBytes value = data.take (size + layout.trailerBytes)
  /-- A value is read back from its stored form, whatever comes after it. -/
  read_of_toBytes : ∀ value rest,
    (layout.filter value).sizeBytes + layout.trailerBytes < UInt64.size →
    layout.ofBytes (layout.toBytes value ++ rest) (layout.filter value).sizeBytes = .ok value

/-- What a reader has to be for its layout to be exact. -/
structure ReadBy (layout : RawLayout α) (reader : Nat → ByteReader α)
    (at? : Nat → Bytes → Nat → Option α) : Prop where
  ofBytes_eq : ∀ data size, layout.ofBytes data size =
    if UInt64.size ≤ size + layout.trailerBytes then .error (.corrupted (.sizeOverflow size))
    else (readOr (reader size) (size + layout.trailerBytes) data.length data).map Prod.fst
  readsAt : ∀ size, ReadsAt (reader size) (size + layout.trailerBytes) (at? size)
  ofBytes_eq_ok_iff : ∀ data size value, layout.ofBytes data size = .ok value ↔
    size + layout.trailerBytes < UInt64.size ∧ (layout.filter value).sizeBytes = size ∧
      ∃ rest, data = layout.toBytes value ++ rest

variable {layout : RawLayout α} {reader : Nat → ByteReader α}
  {at? : Nat → Bytes → Nat → Option α} {data : Bytes} {size : Nat} {value : α}

namespace ReadBy

theorem ofBytes_of_size_le (h : layout.ReadBy reader at?)
    (hLarge : UInt64.size ≤ size + layout.trailerBytes) :
    layout.ofBytes data size = .error (.corrupted (.sizeOverflow size)) := by
  rw [h.ofBytes_eq, if_pos hLarge]

theorem ofBytes_of_length_lt (h : layout.ReadBy reader at?)
    (hFits : size + layout.trailerBytes < UInt64.size)
    (hShort : data.length < size + layout.trailerBytes) :
    layout.ofBytes data size = .error (.truncated (size + layout.trailerBytes) data.length) := by
  rw [h.ofBytes_eq, if_neg (Nat.not_le_of_lt hFits), (h.readsAt size).readOr_of_length_lt hShort]
  rfl

theorem exists_ofBytes (h : layout.ReadBy reader at?)
    (hFits : size + layout.trailerBytes < UInt64.size)
    (hEnough : size + layout.trailerBytes ≤ data.length) :
    ∃ value, layout.ofBytes data size = .ok value := by
  obtain ⟨value, _, hRead⟩ := (h.readsAt size).exists_readOr hEnough
  refine ⟨value, ?_⟩
  rw [h.ofBytes_eq, if_neg (Nat.not_le_of_lt hFits), hRead]
  rfl

/-- A value is written as the bytes that it was read from. -/
theorem toBytes_of_ofBytes (h : layout.ReadBy reader at?) (hSized : layout.Sized)
    (hRead : layout.ofBytes data size = .ok value) :
    (layout.filter value).sizeBytes = size ∧
      layout.toBytes value = data.take (size + layout.trailerBytes) := by
  obtain ⟨_, hSize, rest, rfl⟩ := (h.ofBytes_eq_ok_iff data size value).mp hRead
  refine ⟨hSize, ?_⟩
  rw [← hSize, ← hSized.length_toBytes, List.take_left]

theorem exact (h : layout.ReadBy reader at?) (hSized : layout.Sized) : layout.Exact where
  toSized := hSized
  overflow _ _ := h.ofBytes_of_size_le
  truncated _ _ := h.ofBytes_of_length_lt
  toBytes_of_read := by
    intro data size hFits hEnough
    obtain ⟨value, hRead⟩ := h.exists_ofBytes hFits hEnough
    exact ⟨value, hRead, h.toBytes_of_ofBytes hSized hRead⟩
  read_of_toBytes := by
    intro value rest hFits
    exact (h.ofBytes_eq_ok_iff _ _ value).mpr ⟨hFits, rfl, rest, rfl⟩

end ReadBy

end RawLayout

/-! ## The layouts of the filters -/

def LearnedIndex.rawLayout : RawLayout LearnedIndex where
  filter := filter
  trailerBytes := 33
  toBytes := toBytes
  ofBytes := ofBytes
  sizeBytes := sizeBytes
  stats := stats

theorem LearnedIndex.rawLayout_readBy : rawLayout.ReadBy reader at? where
  ofBytes_eq _ _ := rfl
  readsAt := reader_readsAt
  ofBytes_eq_ok_iff _ _ _ := ofBytes_eq_ok_iff

theorem LearnedIndex.rawLayout_sized : rawLayout.Sized where
  length_toBytes := toBytes_length
  sizeBytes _ := rfl
  totalBytes _ := rfl
  parts _ := rfl

def SpanFilter.rawLayout : RawLayout SpanFilter where
  filter := filter
  trailerBytes := 17
  toBytes := toBytes
  ofBytes := ofBytes
  sizeBytes := sizeBytes
  stats := stats

theorem SpanFilter.rawLayout_readBy : rawLayout.ReadBy reader at? where
  ofBytes_eq _ _ := rfl
  readsAt := reader_readsAt
  ofBytes_eq_ok_iff _ _ _ := ofBytes_eq_ok_iff

theorem SpanFilter.rawLayout_sized : rawLayout.Sized where
  length_toBytes := toBytes_length
  sizeBytes _ := rfl
  totalBytes _ := rfl
  parts _ := rfl

/-- With 33 and 17 bytes after their bit arrays the learned index and the span filter are stored
exactly: every byte string and every size of the bit array has its verdict, and every value comes
back bit for bit. -/
theorem rawLayouts_exact :
    LearnedIndex.rawLayout.trailerBytes = 33 ∧ LearnedIndex.rawLayout.Exact ∧
      SpanFilter.rawLayout.trailerBytes = 17 ∧ SpanFilter.rawLayout.Exact := by
  have hIndex := LearnedIndex.rawLayout_readBy.exact LearnedIndex.rawLayout_sized
  have hBounds := SpanFilter.rawLayout_readBy.exact SpanFilter.rawLayout_sized
  exact ⟨rfl, hIndex, rfl, hBounds⟩

/-- A slope that is no number, with a payload, and a negative zero keep their bits. -/
theorem rawLayouts_exact_not_number :
    let stored : Bytes := [129, 3, 1, 0, 0, 0, 0, 0, 240, 127, 0, 0, 0, 0, 0, 0, 0, 128,
      0, 0, 0, 128, 255, 255, 255, 127, 9, 0, 0, 0, 2, 0, 0, 0]
    let index : LearnedIndex := ⟨⟨#[129], 3⟩,
      ⟨⟨0x7ff0000000000001⟩, ⟨0x8000000000000000⟩, -0x80000000, 0x7FFFFFFF, 9, 2⟩⟩
    LearnedIndex.ofBytes (stored ++ [5]) 1 = .ok index ∧
      (∃ bounds, SpanFilter.ofBytes stored 1 = .ok bounds ∧ bounds.toBytes = stored.take 18) ∧
      SpanFilter.ofBytes stored 18 = .error (.truncated 35 34) ∧
      SpanFilter.ofBytes stored 0xFFFFFFFFFFFFFFEF =
        .error (.corrupted (.sizeOverflow 0xFFFFFFFFFFFFFFEF)) := by
  intro stored index
  have hStored : index.toBytes = stored := by decide +kernel
  have hSize : index.filter.sizeBytes = 1 := rfl
  have hFits : 1 + 33 < UInt64.size := by decide
  -- With its fields in sight, the index would be written out where two statements are compared.
  clear_value index
  obtain ⟨_, hIndex, _, hBounds⟩ := rawLayouts_exact
  have hRead : LearnedIndex.ofBytes (index.toBytes ++ [5]) index.filter.sizeBytes = .ok index :=
    hIndex.read_of_toBytes index [5] (hSize ▸ hFits)
  rw [hStored, hSize] at hRead
  obtain ⟨bounds, hFound, _, hBytes⟩ := hBounds.toBytes_of_read stored 1 (by decide) (by decide)
  have hShort := hBounds.truncated stored 18 (by decide) (by decide)
  have hLarge := hBounds.overflow stored 0xFFFFFFFFFFFFFFEF (by decide)
  exact ⟨hRead, ⟨bounds, hFound, hBytes⟩, hShort, hLarge⟩

end BlockFilter
