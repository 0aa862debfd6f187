import BlockFilter.TableFilter

/-! The keys of a table while it is built. Keys arrive in sorted order, each as its hash and its
block, so blocks never decrease. The set is used up by training a filter. -/

namespace BlockFilter

/-- The hashes and the blocks that were accepted, each in order of arrival. -/
structure TableKeys where
  hashArray : Array KeyHash
  blockArray : Array UInt32
  deriving DecidableEq, Repr

namespace TableKeys

def empty : TableKeys := ⟨#[], #[]⟩

def hashes (set : TableKeys) : List KeyHash := set.hashArray.toList

def blocks (set : TableKeys) : List UInt32 := set.blockArray.toList

def size (set : TableKeys) : Nat := set.hashArray.size

def isEmpty (set : TableKeys) : Bool := set.hashArray.isEmpty

/-- The block of the key that was accepted last. -/
def lastBlock? (set : TableKeys) : Option UInt32 := set.blockArray.back?

/-- The error for a key of a block that lies before the last one. -/
def refusal? (set : TableKeys) (block : UInt32) : Option FilterError :=
  match set.lastBlock? with
  | some previous => if block < previous then some (.outOfOrder previous block) else none
  | none => none

/-- Put a key at the end. -/
def append (set : TableKeys) (hash : KeyHash) (block : UInt32) : TableKeys :=
  ⟨set.hashArray.push hash, set.blockArray.push block⟩

/-- Offer a key, which is refused if its block lies before the last one: the set after that, and the
error if there was one. -/
def push (set : TableKeys) (hash : KeyHash) (block : UInt32) : TableKeys × Option FilterError :=
  match set.refusal? block with
  | some error => (set, some error)
  | none => (set.append hash block, none)

/-- Offer a key by its bytes. -/
def pushKey (set : TableKeys) (key : Bytes) (block : UInt32) : TableKeys × Option FilterError :=
  set.push (KeyHash.ofBytes key) block

/-- Offer keys until one is refused: the set then reached, and the error if there was one. -/
def pushKeys (set : TableKeys) : List (Bytes × UInt32) → TableKeys × Option FilterError
  | [] => (set, none)
  | (key, block) :: rest =>
      match set.pushKey key block with
      | (next, some error) => (next, some error)
      | (next, none) => next.pushKeys rest

/-- The blocks spanned so far: one more than the last block. -/
def blockCount (set : TableKeys) : Nat :=
  match set.lastBlock? with
  | some block => block.toNat + 1
  | none => 0

/-- Train the variant that the settings name. -/
def train (set : TableKeys) (totalBlocks : Nat) (config : Config) :
    Except FilterError TableFilter :=
  TableFilter.train set.hashes set.blocks totalBlocks config

/-- Train a learned index, whatever variant the settings name. -/
def trainHybrid (set : TableKeys) (totalBlocks : Nat) (config : Config) :
    Except FilterError LearnedIndex :=
  LearnedIndex.train set.hashes set.blocks totalBlocks config

@[simp] theorem hashes_append (set : TableKeys) (hash : KeyHash) (block : UInt32) :
    (set.append hash block).hashes = set.hashes ++ [hash] := by
  simp [hashes, append]

@[simp] theorem blocks_append (set : TableKeys) (hash : KeyHash) (block : UInt32) :
    (set.append hash block).blocks = set.blocks ++ [block] := by
  simp [blocks, append]

end TableKeys

end BlockFilter
