import BlockFilter.Bytes.LittleEndian

/-! The reflected cyclic redundancy check with generator `0xEDB88320`. The register starts as all
ones and is complemented at the end. -/

namespace BlockFilter.Crc32

/-- The generator polynomial, its coefficients from the lowest bit up in reverse order. -/
def generator : UInt32 := 0xEDB88320

/-- Shift one bit out of the register and reduce. -/
def shift (register : UInt32) : UInt32 :=
  if register &&& 1 = 1 then (register >>> 1) ^^^ generator else register >>> 1

/-- Take in one byte, its lowest bit first. -/
def absorb (register : UInt32) (byte : UInt8) : UInt32 :=
  Nat.repeat shift 8 (register ^^^ byte.toUInt32)

/-- The register after a byte string. -/
def run (register : UInt32) (bytes : Bytes) : UInt32 := bytes.foldl absorb register

/-- The checksum of a byte string. -/
def checksum (bytes : Bytes) : UInt32 := run 0xFFFFFFFF bytes ^^^ 0xFFFFFFFF

@[simp] theorem run_nil (register : UInt32) : run register [] = register := rfl

@[simp] theorem run_cons (register : UInt32) (byte : UInt8) (rest : Bytes) :
    run register (byte :: rest) = run (absorb register byte) rest := rfl

theorem run_append (register : UInt32) (first second : Bytes) :
    run register (first ++ second) = run (run register first) second :=
  List.foldl_append ..

end BlockFilter.Crc32
