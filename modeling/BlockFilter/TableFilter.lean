import BlockFilter.LearnedIndex
import BlockFilter.SpanFilter

/-! The filter attached to one table. Every variant answers the same question: may a key be in the
table, and which blocks can hold it. -/

namespace BlockFilter

inductive TableFilter where
  /-- A Bloom filter, the last block of the table and the number of its keys. -/
  | bloom (filter : Bloom) (lastBlock keyCount : UInt32)
  /-- A learned index and the input that its position model was trained on. -/
  | hybrid (index : LearnedIndex) (input : PositionInput)
  | bounds (filter : SpanFilter)
  deriving DecidableEq, Repr

namespace TableFilter

/-- Bytes after the bit array of the Bloom variant: the number of probes, last block, keys. -/
def bloomTrailerBytes : Nat := 9

/-- Check settings and keys, then train the variant that the settings name. -/
def train (hashes : List KeyHash) (blocks : List UInt32) (totalBlocks : Nat) (config : Config) :
    Except FilterError TableFilter := do
  checkAll hashes blocks totalBlocks config
  match config.kind with
  | .bloom =>
      return .bloom (Bloom.ofBudget hashes config.budget)
        (lastOrdinal totalBlocks) (storedCount hashes)
  | .hybrid =>
      return .hybrid (LearnedIndex.fit hashes blocks totalBlocks config) config.positionInput
  | .bounds =>
      (SpanFilter.train hashes totalBlocks config.budget).map TableFilter.bounds
        |>.mapError FilterError.trainingSet

/-- What training reports. A training that fails reports nothing. -/
def trainEvents (hashes : List KeyHash) (totalBlocks : Nat) (config : Config) :
    Except FilterError TableFilter → List Event
  | .ok (.bloom filter _ _) =>
      [.trainedBloom hashes.length filter.sizeBytes filter.probes]
  | .ok (.hybrid index _) => index.trainEvents hashes totalBlocks config
  | .ok (.bounds filter) => filter.trainEvents hashes
  | .error _ => []

def kind : TableFilter → FilterKind
  | bloom .. => .bloom
  | hybrid .. => .hybrid
  | bounds .. => .bounds

/-- The input of the position model, where there is one. -/
def positionInput? : TableFilter → Option PositionInput
  | hybrid _ input => some input
  | _ => none

/-- The last block ordinal of the table. -/
def lastBlock : TableFilter → UInt32
  | bloom _ lastBlock _ => lastBlock
  | hybrid index _ => index.model.lastBlock
  | bounds filter => filter.lastBlock

def keyCount : TableFilter → UInt32
  | bloom _ _ keyCount => keyCount
  | hybrid index _ => index.keyCount
  | bounds filter => filter.keyCount

/-- The Bloom filter of a variant. -/
def membership : TableFilter → Bloom
  | bloom filter _ _ => filter
  | hybrid index _ => index.filter
  | bounds filter => filter.filter

/-- Bytes of the bit array. -/
def bloomBytes (filter : TableFilter) : Nat := filter.membership.sizeBytes

/-- False only for a hash that was not trained. A filter of no keys lets everything pass. -/
def mayContain : TableFilter → KeyHash → Bool
  | bloom filter _ keyCount, hash => keyCount == 0 || filter.mayContain hash
  | hybrid index _, hash => index.mayContain hash
  | bounds filter, hash => filter.mayContain hash

/-- The whole table, unless the hash is absent. -/
def wholeTable (filter : TableFilter) (hash : KeyHash) : Lookup :=
  if filter.mayContain hash then .present 0 filter.lastBlock else .absent

/-- Look a hash up. An index of ranks has no rank here, so it names the whole table. -/
def lookup (filter : TableFilter) (hash : KeyHash) : Lookup :=
  match filter with
  | hybrid index .keyHash => index.lookup hash
  | _ => filter.wholeTable hash

/-- Look a hash up with an input for the position model. Variants without a model ignore it. -/
def lookupAt (filter : TableFilter) (hash : KeyHash) (input : UInt32) : Lookup :=
  match filter with
  | hybrid index _ => index.lookupAt hash input
  | _ => filter.wholeTable hash

/-- The stored form of a variant. It does not tell how long its bit array is. -/
def toBytes : TableFilter → Bytes
  | bloom filter lastBlock keyCount =>
      filter.toBytes ++ LittleEndian.uint32 lastBlock ++ LittleEndian.uint32 keyCount
  | hybrid index _ => index.toBytes
  | bounds filter => filter.toBytes

/-- Bytes of the stored form. -/
def sizeBytes : TableFilter → Nat
  | bloom filter _ _ => filter.sizeBytes + bloomTrailerBytes
  | hybrid index _ => index.sizeBytes
  | bounds filter => filter.sizeBytes

/-- Read back the Bloom variant. -/
def bloomReader (bloomBytes : Nat) : ByteReader TableFilter := do
  let filter ← Bloom.reader bloomBytes
  let lastBlock ← ByteReader.uint32
  let keyCount ← ByteReader.uint32
  return .bloom filter lastBlock keyCount

def stats (filter : TableFilter) : Stats :=
  match filter with
  | bloom bits lastBlock keyCount =>
      { totalBytes := filter.sizeBytes
        bloomBytes := bits.sizeBytes
        modelBytes := bloomTrailerBytes
        bloomBits := 8 * bits.sizeBytes
        probes := bits.probes
        errorRange := lastBlock
        keyCount := keyCount
        estimatedRate := bits.estimatedRate keyCount }
  | hybrid index _ => index.stats
  | bounds filter => filter.stats

/-- Equality of filters by the values of their fields. -/
def sameValues : TableFilter → TableFilter → Bool
  | hybrid a inputA, hybrid b inputB => a.sameValues b && inputA == inputB
  | a, b => a == b

@[simp] theorem toBytes_length (filter : TableFilter) :
    filter.toBytes.length = filter.sizeBytes := by
  cases filter with
  | bloom filter lastBlock keyCount =>
      simp only [toBytes, sizeBytes, bloomTrailerBytes, List.length_append, Bloom.toBytes_length,
        LittleEndian.length_uint32]
  | hybrid index input => exact index.toBytes_length
  | bounds filter => exact filter.toBytes_length

end TableFilter

end BlockFilter
