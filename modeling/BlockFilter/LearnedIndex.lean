import BlockFilter.Bloom
import BlockFilter.Event
import BlockFilter.FittedLine
import BlockFilter.Lookup
import BlockFilter.Stats

/-! The learned index of a table: a Bloom filter of fixed size decides whether the table is searched,
and a line fitted to the positions of the keys decides where. -/

namespace BlockFilter

/-- A membership filter and a position model over the same keys. -/
structure LearnedIndex where
  filter : Bloom
  model : FittedLine
  deriving DecidableEq, Repr

namespace LearnedIndex

/-- An index of nothing. Every key may be present, and the range is the whole table. -/
def blank : LearnedIndex := ⟨.empty, .blank⟩

/-- Bytes after the bit array: the number of probes and the model. -/
def trailerBytes : Nat := 1 + FittedLine.sizeBytes

/-- The ranks of so many keys. The number of keys is taken as a 32-bit word, so more keys than that
get the ranks of what is left of their number. -/
def ranks (keys : Nat) : List UInt32 :=
  (List.range (UInt32.ofNat keys).toNat).map UInt32.ofNat

/-- Train both parts on keys that have been checked. The filter takes the hashes; the model takes
the hashes or the ranks of the keys. -/
def fit (hashes : List KeyHash) (blocks : List UInt32) (totalBlocks : Nat) (config : Config) :
    LearnedIndex :=
  let inputs := match config.positionInput with
    | .keyHash => hashes
    | .ordinal => ranks hashes.length
  ⟨Bloom.ofSize hashes config.bloomBytes, FittedLine.train inputs blocks totalBlocks⟩

/-- Check settings and keys, then train. -/
def train (hashes : List KeyHash) (blocks : List UInt32) (totalBlocks : Nat) (config : Config) :
    Except FilterError LearnedIndex := do
  checkAll hashes blocks totalBlocks config
  return fit hashes blocks totalBlocks config

def keyCount (index : LearnedIndex) : UInt32 := index.model.keyCount

def estimatedRate (index : LearnedIndex) : Binary64 := index.filter.estimatedRate index.keyCount

/-- What training reports: the sizes, and a warning when the filter is too small for the target
rate. -/
def trainEvents (hashes : List KeyHash) (totalBlocks : Nat) (config : Config)
    (index : LearnedIndex) : List Event :=
  .trainedHybrid hashes.length totalBlocks index.filter.probes index.model.errorRange ::
    if config.targetRate.lt index.estimatedRate then
      [.rateAboveTarget config.bloomBytes hashes.length index.estimatedRate config.targetRate]
    else []

/-- False only for a hash that was not trained. An index of no keys lets everything pass. -/
def mayContain (index : LearnedIndex) (hash : KeyHash) : Bool :=
  index.keyCount == 0 || index.filter.mayContain hash

def predict (index : LearnedIndex) (input : UInt32) : Prediction := index.model.predict input

/-- Look a hash up, the position model taking `input`. -/
def lookupAt (index : LearnedIndex) (hash : KeyHash) (input : UInt32) : Lookup :=
  if index.mayContain hash then
    let prediction := index.predict input
    .present prediction.minBlock prediction.maxBlock
  else .absent

/-- Look a hash up, the position model taking the hash itself. This suits an index that was trained
on hashes. -/
def lookup (index : LearnedIndex) (hash : KeyHash) : Lookup := index.lookupAt hash hash

def sizeBytes (index : LearnedIndex) : Nat := index.filter.sizeBytes + trailerBytes

/-- The bit array, the number of probes and the model. -/
def toBytes (index : LearnedIndex) : Bytes := index.filter.toBytes ++ index.model.toBytes

def reader (bloomBytes : Nat) : ByteReader LearnedIndex := do
  let filter ← Bloom.reader bloomBytes
  let model ← FittedLine.reader
  return ⟨filter, model⟩

/-- Read an index whose bit array has `bloomBytes` bytes from the front of a byte string. -/
def ofBytes (data : Bytes) (bloomBytes : Nat) : Except FilterError LearnedIndex :=
  let expected := bloomBytes + trailerBytes
  if UInt64.size ≤ expected then .error (.corrupted (.sizeOverflow bloomBytes))
  else (readOr (reader bloomBytes) expected data.length data).map Prod.fst

def stats (index : LearnedIndex) : Stats where
  totalBytes := index.sizeBytes
  bloomBytes := index.filter.sizeBytes
  modelBytes := trailerBytes
  bloomBits := 8 * index.filter.sizeBytes
  probes := index.filter.probes
  errorRange := index.model.errorRange
  keyCount := index.keyCount
  estimatedRate := index.estimatedRate

/-- Equality of indexes by the values of their fields. -/
def sameValues (a b : LearnedIndex) : Bool := a.filter == b.filter && a.model.sameValues b.model

theorem getElem?_ranks {keys rank : Nat} (hKeys : keys < UInt32.size) (hRank : rank < keys) :
    (ranks keys)[rank]? = some (UInt32.ofNat rank) := by
  rw [ranks, UInt32.toNat_ofNat_of_lt' hKeys, List.getElem?_map, List.getElem?_range hRank,
    Option.map_some]

theorem length_ranks {keys : Nat} (hKeys : keys < UInt32.size) : (ranks keys).length = keys := by
  rw [ranks, UInt32.toNat_ofNat_of_lt' hKeys, List.length_map, List.length_range]

@[simp] theorem toBytes_length (index : LearnedIndex) : index.toBytes.length = index.sizeBytes := by
  simp only [toBytes, sizeBytes, trailerBytes, List.length_append, Bloom.toBytes_length,
    FittedLine.toBytes_length]
  omega

end LearnedIndex

end BlockFilter
