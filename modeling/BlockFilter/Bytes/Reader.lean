import BlockFilter.Bytes.LittleEndian

/-! Readers of stored fields. A reader takes what it needs from the front of the input and hands on
the rest. It fails as a whole when too few bytes are left, so no field is ever read past the end. -/

namespace BlockFilter

/-- A reader of a value, with the bytes that remain as its state. -/
abbrev ByteReader := StateT Bytes Option

namespace ByteReader

/-- Succeeds without taking anything when at least `count` bytes are left. -/
def ensure (count : Nat) : ByteReader Unit := fun input =>
  if count ≤ input.length then some ((), input) else none

/-- The next `count` bytes. -/
def bytes (count : Nat) : ByteReader Bytes := fun input =>
  if count ≤ input.length then some (input.take count, input.drop count) else none

/-- The next `width` bytes as a little-endian number. -/
def number (width : Nat) : ByteReader Nat := LittleEndian.toNat <$> bytes width

def uint8 : ByteReader UInt8 := UInt8.ofNat <$> number 1

def uint32 : ByteReader UInt32 := UInt32.ofNat <$> number 4

def uint64 : ByteReader UInt64 := UInt64.ofNat <$> number 8

def int32 : ByteReader Int32 := UInt32.toInt32 <$> uint32

theorem ensure_run (count : Nat) (input : Bytes) :
    (ensure count).run input = if count ≤ input.length then some ((), input) else none := rfl

theorem bytes_run (count : Nat) (input : Bytes) :
    (bytes count).run input =
      if count ≤ input.length then some (input.take count, input.drop count) else none := rfl

/-- Reading takes off exactly what was put in front. -/
theorem bytes_append {count : Nat} (front rest : Bytes) (h : front.length = count) :
    (bytes count).run (front ++ rest) = some (front, rest) := by
  subst h
  simp [bytes_run]

theorem number_append {width n : Nat} (rest : Bytes) (h : n < LittleEndian.size width) :
    (number width).run (LittleEndian.ofNat width n ++ rest) = some (n, rest) := by
  simp [number, bytes_append _ rest (LittleEndian.length_ofNat width n), LittleEndian.toNat_ofNat,
    Nat.mod_eq_of_lt h]

@[simp] theorem uint32_append (word : UInt32) (rest : Bytes) :
    uint32.run (LittleEndian.uint32 word ++ rest) = some (word, rest) := by
  have h : word.toNat < LittleEndian.size 4 := word.toNat_lt
  simp [uint32, LittleEndian.uint32, number_append rest h]

@[simp] theorem int32_append (word : Int32) (rest : Bytes) :
    int32.run (LittleEndian.int32 word ++ rest) = some (word, rest) := by
  simp [int32, LittleEndian.int32]

/-- What was read, followed by what is left, is the input. -/
theorem append_eq_of_bytes {count : Nat} {input front rest : Bytes}
    (h : (bytes count).run input = some (front, rest)) :
    front ++ rest = input ∧ front.length = count := by
  rw [bytes_run] at h
  split at h
  · cases h
    refine ⟨List.take_append_drop .., ?_⟩
    simp only [List.length_take]
    omega
  · cases h

end ByteReader

end BlockFilter
