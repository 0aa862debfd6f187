import BlockFilter.Decimal.Fixed
import BlockFilter.Error

/-! What the library reports while it works. Events are values: every operation that has something to
report comes with a function from its outcome to the list of its events. -/

namespace BlockFilter

/-- How much an event matters. -/
inductive Level where
  | debug
  | info
  | warn
  | error
  deriving DecidableEq, Repr

def Level.name : Level → String
  | .debug => "DEBUG"
  | .info => "INFO"
  | .warn => "WARN"
  | .error => "ERROR"

inductive Event where
  | trainingStarted (kind : FilterKind) (keys totalBlocks : Nat)
  | trainedBloom (keys bloomBytes : Nat) (probes : UInt8)
  | trainedHybrid (keys totalBlocks : Nat) (probes : UInt8) (errorRange : UInt32)
  | trainedBounds (keys : Nat) (minHash maxHash : UInt32) (probes : UInt8)
  /-- A hybrid filter too small for its keys to reach the target rate. -/
  | rateAboveTarget (bloomBytes keys : Nat) (rate target : Binary64)
  | blockRejected (fault : BlockFault)
  | fileWritten (path : String)
  | failed (error : FilterError)
  deriving DecidableEq, Repr

namespace Event

def level : Event → Level
  | trainedBloom .. | trainedHybrid .. | trainedBounds .. | blockRejected .. => .debug
  | trainingStarted .. | fileWritten .. => .info
  | rateAboveTarget .. => .warn
  | failed .. => .error

def message : Event → String
  | trainingStarted kind keys totalBlocks =>
      s!"Training {kind.name} filter over {keys} keys in {totalBlocks} blocks"
  | trainedBloom keys bloomBytes probes =>
      s!"Trained bloom filter: {keys} keys, {bloomBytes} bytes, k={probes}"
  | trainedHybrid keys totalBlocks probes errorRange =>
      s!"Trained hybrid filter: {keys} keys, {totalBlocks} blocks, k={probes}, " ++
        s!"error range {errorRange}"
  | trainedBounds keys minHash maxHash probes =>
      s!"Trained bounds filter: {keys} keys, hash span [{Text.hexWord minHash}, " ++
        s!"{Text.hexWord maxHash}], k={probes}"
  | rateAboveTarget bloomBytes keys rate target =>
      s!"Hybrid filter of {bloomBytes} bytes over {keys} keys estimates " ++
        s!"{Decimal.percent rate}% false positives (target {Decimal.percent target}%)"
  | blockRejected fault => s!"Rejected filter block: {fault.message}"
  | fileWritten path => s!"Wrote {path}"
  | failed error => error.message

/-- The entry of an event in a log: its level and its message. -/
def line (event : Event) : String :=
  s!"{event.level.name} {Text.showControls event.message}"

end Event

end BlockFilter
