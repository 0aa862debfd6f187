/-! Numbers as little-endian bytes. Writing a number keeps its remainder modulo the numbers that fit
the width, and reading undoes writing byte for byte, so a field of a block has one written form. -/

namespace BlockFilter

/-- A string of bytes, the first one first. -/
abbrev Bytes := List UInt8

namespace LittleEndian

/-- How many numbers fit `width` bytes. -/
def size : Nat → Nat
  | 0 => 1
  | width + 1 => 256 * size width

/-- The low `width` bytes of a number, least significant first. -/
def ofNat : Nat → Nat → Bytes
  | 0, _ => []
  | width + 1, n => UInt8.ofNat n :: ofNat width (n / 256)

/-- The number that a byte string stands for. -/
def toNat (bytes : Bytes) : Nat := bytes.foldr (fun byte rest => byte.toNat + 256 * rest) 0

@[simp] theorem toNat_nil : toNat [] = 0 := rfl

@[simp] theorem toNat_cons (byte : UInt8) (rest : Bytes) :
    toNat (byte :: rest) = byte.toNat + 256 * toNat rest := rfl

@[simp] theorem length_ofNat (width n : Nat) : (ofNat width n).length = width := by
  induction width generalizing n with
  | zero => rfl
  | succ width ih => rw [ofNat, List.length_cons, ih]

theorem toNat_lt_size (bytes : Bytes) : toNat bytes < size bytes.length := by
  induction bytes with
  | nil => exact Nat.one_pos
  | cons byte rest ih =>
      have hByte : byte.toNat < 256 := byte.toNat_lt
      rw [toNat_cons, List.length_cons, size]
      omega

theorem toNat_ofNat (width n : Nat) : toNat (ofNat width n) = n % size width := by
  induction width generalizing n with
  | zero => rw [ofNat, toNat_nil, size, Nat.mod_one]
  | succ width ih => rw [ofNat, toNat_cons, ih, size, Nat.mod_mul, UInt8.toNat_ofNat']

theorem ofNat_toNat (bytes : Bytes) : ofNat bytes.length (toNat bytes) = bytes := by
  induction bytes with
  | nil => rfl
  | cons byte rest ih =>
      have hByte : byte.toNat < 256 := byte.toNat_lt
      have hHead : UInt8.ofNat (byte.toNat + 256 * toNat rest) = byte := by
        apply UInt8.toNat.inj
        rw [UInt8.toNat_ofNat']
        omega
      have hTail : (byte.toNat + 256 * toNat rest) / 256 = toNat rest := by omega
      rw [toNat_cons, List.length_cons, ofNat, hHead, hTail, ih]

/-- Four bytes hold a 32-bit word. -/
def uint32 (word : UInt32) : Bytes := ofNat 4 word.toNat

/-- Eight bytes hold a 64-bit word. -/
def uint64 (word : UInt64) : Bytes := ofNat 8 word.toNat

/-- A signed word is stored in two's complement. -/
def int32 (word : Int32) : Bytes := uint32 word.toUInt32

@[simp] theorem length_uint32 (word : UInt32) : (uint32 word).length = 4 := length_ofNat ..

@[simp] theorem length_uint64 (word : UInt64) : (uint64 word).length = 8 := length_ofNat ..

@[simp] theorem length_int32 (word : Int32) : (int32 word).length = 4 := length_uint32 _

end LittleEndian

end BlockFilter
