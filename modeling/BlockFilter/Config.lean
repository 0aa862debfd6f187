import BlockFilter.Binary64.Exact

/-! What a table asks of its filter. A configuration may hold any values; `Config.check` names the
first field outside its accepted range. -/

namespace BlockFilter

/-- The variants of a table's filter. -/
inductive FilterKind where
  /-- A Bloom filter alone. -/
  | bloom
  /-- A Bloom filter of fixed size and a model of block positions. -/
  | hybrid
  /-- A Bloom filter and the span of the key hashes. -/
  | bounds
  deriving DecidableEq, Repr

/-- The name in messages and reports. -/
def FilterKind.name : FilterKind → String
  | .bloom => "Bloom"
  | .hybrid => "Hybrid"
  | .bounds => "Bounds"

/-- The number that the position model takes for a key. -/
inductive PositionInput where
  /-- The hash of the key, which every query has at hand. -/
  | keyHash
  /-- The rank of the key in sorted order, which the reader must supply. -/
  | ordinal
  deriving DecidableEq, Repr

/-- The smallest accepted bit array, in bytes. -/
def minBloomBytes : Nat := 8

/-- The largest accepted explicit budget of bits per key. -/
def maxBitsPerKey : Nat := 64

/-- The settings of one table's filter. -/
structure Config where
  kind : FilterKind := .hybrid
  /-- Bytes in the bit array of the hybrid variant. -/
  bloomBytes : Nat := 64
  /-- The rate of false positives to aim at, one in twenty unless stated. -/
  targetRate : Binary64 := ⟨0x3fa999999999999a⟩
  /-- A budget for the other variants, which goes before the target rate. -/
  bitsPerKey : Option Nat := none
  positionInput : PositionInput := .keyHash
  deriving DecidableEq, Repr

/-- Why a configuration is refused. -/
inductive ConfigFault where
  | bloomTooSmall (bytes : Nat)
  | rateOutOfRange (rate : Binary64)
  | bitsPerKeyOutOfRange (bits : Nat)
  deriving DecidableEq, Repr

/-- Bits per key for a rate of false positives `p`: the ceiling of `-ln p / (ln 2)²`, at least one,
and one where the formula gives no finite number. -/
def budgetForRate (rate : Binary64) : Nat :=
  max 1 (((-rate.log) / (Binary64.ln2 * Binary64.ln2)).ceilNat?.getD 1)

namespace Config

/-- The first fault of a configuration: the bit array too small, the rate not strictly between zero
and one, or a budget of no bits or of too many. -/
def check (config : Config) : Except ConfigFault Unit := do
  if config.bloomBytes < minBloomBytes then
    throw (.bloomTooSmall config.bloomBytes)
  if !(Binary64.zero.lt config.targetRate && config.targetRate.lt Binary64.one) then
    throw (.rateOutOfRange config.targetRate)
  match config.bitsPerKey with
  | some bits => if bits = 0 ∨ maxBitsPerKey < bits then throw (.bitsPerKeyOutOfRange bits)
  | none => pure ()

/-- The budget of the variants that are sized by bits per key. -/
def budget (config : Config) : Nat :=
  config.bitsPerKey.getD (budgetForRate config.targetRate)

end Config

end BlockFilter
