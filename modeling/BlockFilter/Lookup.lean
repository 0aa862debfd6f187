/-! The answer to a query: a key is absent, or it may be in a range of blocks. -/

namespace BlockFilter

/-- The outcome of a query. -/
inductive Lookup where
  /-- The key is not in the table. -/
  | absent
  /-- The key, if it is in the table, is in one of the blocks from `first` to `last`. -/
  | present (first last : UInt32)
  deriving DecidableEq, Repr

namespace Lookup

def isPresent : Lookup → Bool
  | absent => false
  | present .. => true

/-- The first block to scan, zero where there is none. -/
def minBlock : Lookup → UInt32
  | absent => 0
  | present first _ => first

/-- The last block to scan, zero where there is none. -/
def maxBlock : Lookup → UInt32
  | absent => 0
  | present _ last => last

/-- The first and the last block to scan. -/
def range? : Lookup → Option (UInt32 × UInt32)
  | absent => none
  | present first last => some (first, last)

/-- How many blocks are to be scanned, up to `2 ^ 32` of them. A range that is the wrong way round
counts as its first block. -/
def scanLength : Lookup → Nat
  | absent => 0
  | present first last => (last.toNat - first.toNat) + 1

end Lookup

end BlockFilter
