import BlockFilter.Error
import BlockFilter.KeyHash

/-! What every filter asks of the keys of a table: a block for each hash, and each block in the
table. -/

namespace BlockFilter

/-- The last block ordinal of a table, zero for a table without blocks, and no larger than a 32-bit
number. -/
def lastOrdinal (totalBlocks : Nat) : UInt32 := UInt32.ofNatClamp (totalBlocks - 1)

/-- The number of keys as it is stored, no larger than a 32-bit number. -/
def storedCount {α : Type} (keys : List α) : UInt32 := UInt32.ofNatClamp keys.length

/-- The first fault of a list of hashes and the blocks that go with them. -/
def checkTraining (hashes : List KeyHash) (blocks : List UInt32) (totalBlocks : Nat) :
    Except TrainingFault Unit :=
  if hashes.length ≠ blocks.length then .error (.lengthMismatch hashes.length blocks.length)
  else match blocks.find? fun block => totalBlocks ≤ block.toNat with
    | some block => .error (.blockOutside block totalBlocks)
    | none => .ok ()

/-- Settings and keys are checked in this order before any filter is trained. -/
def checkAll (hashes : List KeyHash) (blocks : List UInt32) (totalBlocks : Nat) (config : Config) :
    Except FilterError Unit := do
  config.check.mapError FilterError.config
  (checkTraining hashes blocks totalBlocks).mapError FilterError.trainingSet

end BlockFilter
