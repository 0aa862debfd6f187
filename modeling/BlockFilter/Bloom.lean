import BlockFilter.Binary64.Nearest
import BlockFilter.Bytes.Reader
import BlockFilter.Config
import BlockFilter.ProbeSequence

/-! Bloom filters. A filter is a bit array and a number of probes; training sets the bits at the
positions of every hash, and a hash may be in the filter when all its bits are set. -/

namespace BlockFilter

/-- A Bloom filter. Without a bit array it reports every hash as possibly present. -/
structure Bloom where
  bits : Array UInt8
  probes : UInt8
  deriving DecidableEq, Repr

namespace Bloom

/-- The filter without bits and without probes. -/
def empty : Bloom := ⟨#[], 0⟩

/-- The largest number of probes that training chooses. -/
def maxProbes : Nat := 30

def sizeBytes (bloom : Bloom) : Nat := bloom.bits.size

/-- The bits that can be addressed: all of them, up to the largest 32-bit number. -/
def numBits (bloom : Bloom) : UInt32 := UInt32.ofNatClamp (8 * bloom.bits.size)

/-- The bit of a position within its byte, the lowest bit first. -/
def mask (position : UInt32) : UInt8 := 1 <<< (position % 8).toUInt8

/-- The bit at a position, or `none` past the end of the array. -/
def bit? (bloom : Bloom) (position : UInt32) : Option Bool :=
  bloom.bits[(position / 8).toNat]?.map fun byte => byte &&& mask position != 0

/-- Set the bit at a position. -/
def setBit (bloom : Bloom) (position : UInt32) : Bloom :=
  { bloom with bits := bloom.bits.modify (position / 8).toNat (· ||| mask position) }

/-- The bit positions of a hash. -/
def positions (bloom : Bloom) (hash : KeyHash) : List UInt32 :=
  ProbeSequence.positions hash bloom.probes bloom.numBits

/-- Set every bit of a hash. -/
def insert (bloom : Bloom) (hash : KeyHash) : Bloom :=
  (bloom.positions hash).foldl setBit bloom

/-- Set every bit of every hash. -/
def insertAll (bloom : Bloom) (hashes : List KeyHash) : Bloom :=
  hashes.foldl insert bloom

/-- False only for a hash that was never inserted. -/
def mayContain (bloom : Bloom) (hash : KeyHash) : Bool :=
  bloom.bits.isEmpty ||
    (bloom.positions hash).all fun position => bloom.bit? position == some true

/-- A filter with no bit set. -/
def cleared (size : Nat) (probes : UInt8) : Bloom := ⟨Array.replicate size 0, probes⟩

/-- The probes for a budget of bits per key: `round(bits · ln 2)`, from one to thirty. -/
def probeCount (bitsPerKey : Binary64) : UInt8 :=
  let rounded := (bitsPerKey * Binary64.ln2).nearestInteger
  UInt8.ofNat (max 1 (min rounded maxProbes)).toNat

/-- Train on hashes with a bit array of `size` bytes, or of the smallest accepted size if that is
larger. -/
def ofSize (hashes : List KeyHash) (size : Nat) : Bloom :=
  let size := max size minBloomBytes
  let probes :=
    if hashes.isEmpty then 1
    else probeCount (Binary64.ofNat size * Binary64.ofNat 8 / Binary64.ofNat hashes.length)
  (cleared size probes).insertAll hashes

/-- Train on hashes with a budget of bits per key, at least one, and at least the smallest accepted
bit array. The number of bits does not pass the largest 64-bit number. -/
def ofBudget (hashes : List KeyHash) (bitsPerKey : Nat) : Bloom :=
  let bitsPerKey := max bitsPerKey 1
  let numBits := max (min (hashes.length * bitsPerKey) (UInt64.size - 1)) (8 * minBloomBytes)
  let probes := if hashes.isEmpty then 1 else probeCount (Binary64.ofNat bitsPerKey)
  (cleared (ceilDiv numBits 8) probes).insertAll hashes

/-- The expected share of false positives after `n` keys, `(1 - e^(-k·n/m))^k` for `k` probes into
`m` bits. A filter without keys or without bits has none. -/
def estimatedRate (bloom : Bloom) (keyCount : UInt32) : Binary64 :=
  if keyCount = 0 ∨ bloom.bits.isEmpty then Binary64.zero else
  let k := Binary64.ofUInt32 bloom.probes.toUInt32
  let load := -k * Binary64.ofUInt32 keyCount / Binary64.ofUInt32 bloom.numBits
  (Binary64.one - load.exp).pow k

/-- The bit array, then the number of probes. -/
def toBytes (bloom : Bloom) : Bytes := bloom.bits.toList ++ [bloom.probes]

/-- Read back a filter whose bit array has `size` bytes. -/
def reader (size : Nat) : ByteReader Bloom := do
  let bits ← ByteReader.bytes size
  let probes ← ByteReader.uint8
  return ⟨bits.toArray, probes⟩

@[simp] theorem sizeBytes_setBit (bloom : Bloom) (position : UInt32) :
    (bloom.setBit position).sizeBytes = bloom.sizeBytes := by
  simp [setBit, sizeBytes]

@[simp] theorem probes_setBit (bloom : Bloom) (position : UInt32) :
    (bloom.setBit position).probes = bloom.probes := rfl

@[simp] theorem toBytes_length (bloom : Bloom) : bloom.toBytes.length = bloom.sizeBytes + 1 := by
  simp [toBytes, sizeBytes]

end Bloom

end BlockFilter
