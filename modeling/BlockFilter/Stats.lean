import BlockFilter.Decimal.Fixed

/-! The figures of a filter and the report that shows them. -/

namespace BlockFilter

/-- Observations on a filter. -/
structure Stats where
  /-- Bytes of the whole filter as it is stored. -/
  totalBytes : Nat
  /-- Bytes of the bit array. -/
  bloomBytes : Nat
  /-- Bytes of all that follows the bit array. -/
  modelBytes : Nat
  bloomBits : Nat
  probes : UInt8
  /-- The width of the widest range that a trained key can get. -/
  errorRange : UInt32
  keyCount : UInt32
  /-- The share of absent keys that are expected to pass. -/
  estimatedRate : Binary64
  deriving DecidableEq, Repr

/-- The report, a figure a line, without a line end after the last. -/
def Stats.report (stats : Stats) : String :=
  "\n".intercalate [
    s!"total size:      {stats.totalBytes} bytes",
    s!"bloom:           {stats.bloomBytes} bytes ({stats.bloomBits} bits, k={stats.probes})",
    s!"model:           {stats.modelBytes} bytes",
    s!"keys:            {stats.keyCount}",
    s!"error range:     {stats.errorRange} blocks",
    s!"estimated FP:    {Decimal.percent stats.estimatedRate}%"]

end BlockFilter
