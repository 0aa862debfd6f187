import BlockFilter.Bloom
import BlockFilter.Event
import BlockFilter.Lookup
import BlockFilter.Stats
import BlockFilter.TrainingCheck

/-! A Bloom filter with the span of the key hashes. A hash outside the span is absent whatever the
bits say. The order of hashes tells nothing about blocks, so a lookup always names the whole
table. -/

namespace BlockFilter

structure SpanFilter where
  filter : Bloom
  minHash : UInt32
  maxHash : UInt32
  numBlocks : UInt32
  keyCount : UInt32
  deriving DecidableEq, Repr

namespace SpanFilter

/-- The filter with every field zero. -/
def blank : SpanFilter := ⟨.empty, 0, 0, 0, 0⟩

/-- Bytes after the bit array: the number of probes, both hashes, blocks and keys. -/
def trailerBytes : Nat := 17

/-- Train on the hashes of a table; the blocks of the keys play no part. A table without keys has
the widest span, and only such a table may be without blocks. -/
def train (hashes : List KeyHash) (totalBlocks bitsPerKey : Nat) :
    Except TrainingFault SpanFilter :=
  let filter := Bloom.ofBudget hashes bitsPerKey
  let numBlocks := UInt32.ofNatClamp totalBlocks
  match hashes with
  | [] => .ok ⟨filter, 0, 0xFFFFFFFF, numBlocks, 0⟩
  | first :: rest =>
      if totalBlocks = 0 then .error (.noBlocks hashes.length)
      else .ok ⟨filter, rest.foldl min first, rest.foldl max first, numBlocks, storedCount hashes⟩

/-- What training on at least one key reports. -/
def trainEvents (hashes : List KeyHash) (bounds : SpanFilter) : List Event :=
  if hashes.isEmpty then []
  else [.trainedBounds hashes.length bounds.minHash bounds.maxHash bounds.filter.probes]

/-- False only for a hash that was not trained. A filter of no keys lets everything pass. -/
def mayContain (bounds : SpanFilter) (hash : KeyHash) : Bool :=
  bounds.keyCount == 0 ||
    (bounds.minHash ≤ hash && hash ≤ bounds.maxHash && bounds.filter.mayContain hash)

/-- The last block ordinal of the table. -/
def lastBlock (bounds : SpanFilter) : UInt32 := lastOrdinal bounds.numBlocks.toNat

/-- Guess the block of a hash from its place in the span. The share of the span below the hash and
its product with the last ordinal are rounded to binary64 numbers, and the product is cut down to an
integer. A span of one hash gives the middle of the table. -/
def guessBlock (bounds : SpanFilter) (hash : KeyHash) : UInt32 :=
  if bounds.numBlocks = 0 then 0
  else if bounds.maxHash ≤ bounds.minHash then bounds.numBlocks / 2
  else
    let span := bounds.maxHash.toNat - bounds.minHash.toNat
    let offset := min (hash.toNat - bounds.minHash.toNat) span
    let share := Binary64.nearestRatio offset span
    let product := Binary64.nearestRatio (share.1 * (bounds.numBlocks.toNat - 1)) share.2
    UInt32.ofNat (product.1 / product.2)

def lookup (bounds : SpanFilter) (hash : KeyHash) : Lookup :=
  if bounds.mayContain hash then .present 0 bounds.lastBlock else .absent

def sizeBytes (bounds : SpanFilter) : Nat := bounds.filter.sizeBytes + trailerBytes

/-- The bit array, the number of probes, both hashes, blocks and keys. -/
def toBytes (bounds : SpanFilter) : Bytes :=
  bounds.filter.toBytes ++ LittleEndian.uint32 bounds.minHash ++
    LittleEndian.uint32 bounds.maxHash ++ LittleEndian.uint32 bounds.numBlocks ++
    LittleEndian.uint32 bounds.keyCount

def reader (bloomBytes : Nat) : ByteReader SpanFilter := do
  let filter ← Bloom.reader bloomBytes
  let minHash ← ByteReader.uint32
  let maxHash ← ByteReader.uint32
  let numBlocks ← ByteReader.uint32
  let keyCount ← ByteReader.uint32
  return ⟨filter, minHash, maxHash, numBlocks, keyCount⟩

/-- Read a filter whose bit array has `bloomBytes` bytes from the front of a byte string. -/
def ofBytes (data : Bytes) (bloomBytes : Nat) : Except FilterError SpanFilter :=
  let expected := bloomBytes + trailerBytes
  if UInt64.size ≤ expected then .error (.corrupted (.sizeOverflow bloomBytes))
  else (readOr (reader bloomBytes) expected data.length data).map Prod.fst

def stats (bounds : SpanFilter) : Stats where
  totalBytes := bounds.sizeBytes
  bloomBytes := bounds.filter.sizeBytes
  modelBytes := trailerBytes
  bloomBits := 8 * bounds.filter.sizeBytes
  probes := bounds.filter.probes
  errorRange := bounds.lastBlock
  keyCount := bounds.keyCount
  estimatedRate := bounds.filter.estimatedRate bounds.keyCount

@[simp] theorem toBytes_length (bounds : SpanFilter) :
    bounds.toBytes.length = bounds.sizeBytes := by
  simp only [toBytes, sizeBytes, trailerBytes, List.length_append, Bloom.toBytes_length,
    LittleEndian.length_uint32]

end SpanFilter

end BlockFilter
