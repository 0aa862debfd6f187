import BlockFilter.Binary64.Nearest
import BlockFilter.Bytes.Reader
import BlockFilter.TrainingCheck

/-! The model of block positions: a least-squares line from a key's input to its block, with the
worst errors below and above the line on the keys it was fitted to. The errors are widened by one
block and kept as 32-bit integers, so the range around the line holds the block of every key whose
error fits. -/

namespace BlockFilter

/-- A line `block ≈ slope · input + intercept`, bounds on its error, the last block of the table and
the number of keys it was fitted to. -/
structure FittedLine where
  slope : Binary64
  intercept : Binary64
  minError : Int32
  maxError : Int32
  lastBlock : UInt32
  keyCount : UInt32
  deriving DecidableEq, Repr

/-- The predicted block and the range that must be scanned. -/
structure Prediction where
  block : UInt32
  minBlock : UInt32
  maxBlock : UInt32
  deriving DecidableEq, Repr

namespace FittedLine

/-- A model of no keys. -/
def ofNoKeys (totalBlocks : Nat) : FittedLine :=
  ⟨.zero, .zero, 0, 0, lastOrdinal totalBlocks, 0⟩

/-- The model with every field zero. -/
def blank : FittedLine := ⟨.zero, .zero, 0, 0, 0, 0⟩

/-- The value of the line at an input, to the nearest integer. -/
def nearestBlock (model : FittedLine) (input : UInt32) : Int :=
  (model.slope * Binary64.ofUInt32 input + model.intercept).nearestInteger

/-- How far the block of a sample lies above the line. -/
def errorAt (model : FittedLine) (sample : UInt32 × UInt32) : Int :=
  saturate ((sample.2.toNat : Int) - model.nearestBlock sample.1)

/-- Slope and intercept of the least-squares line through `(input, block)` samples. The sums are
centred on the means. Inputs that do not spread give the constant line through the mean block. -/
def leastSquares (samples : List (UInt32 × UInt32)) : Binary64 × Binary64 :=
  let xs := samples.map fun sample => Binary64.ofUInt32 sample.1
  let ys := samples.map fun sample => Binary64.ofUInt32 sample.2
  let n := Binary64.ofNat samples.length
  let meanX := Binary64.sum xs / n
  let meanY := Binary64.sum ys / n
  let sxx := Binary64.sum (xs.map fun x => (x - meanX) * (x - meanX))
  let sxy := Binary64.sum ((xs.zip ys).map fun (x, y) => (x - meanX) * (y - meanY))
  if (n * sxx).abs.lt degenerate then (.zero, meanY)
  else
    let slope := sxy / sxx
    (slope, meanY - slope * meanX)
where
  /-- The spread `1e-10` below which inputs count as equal. -/
  degenerate : Binary64 := ⟨0x3ddb7cdfd9d7bdbb⟩

/-- Bound the errors of a line on samples from below and above, each bound widened by one. -/
def boundErrors (line : FittedLine) (samples : List (UInt32 × UInt32)) : FittedLine :=
  let errors := samples.map line.errorAt
  let lowest := errors.foldl min maxInt64
  let highest := errors.foldl max minInt64
  { line with
    minError := Int32.ofIntClamp (saturate (lowest - 1))
    maxError := Int32.ofIntClamp (saturate (highest + 1)) }

/-- Fit the line and bound its errors. -/
def fit (samples : List (UInt32 × UInt32)) (totalBlocks : Nat) : FittedLine :=
  let coefficients := leastSquares samples
  let line : FittedLine :=
    ⟨coefficients.1, coefficients.2, 0, 0, lastOrdinal totalBlocks, storedCount samples⟩
  line.boundErrors samples

/-- The model of a table's keys, given by their inputs and their blocks. One key is on the line
whatever its input. -/
def train (inputs blocks : List UInt32) (totalBlocks : Nat) : FittedLine :=
  match inputs.zip blocks with
  | [] => ofNoKeys totalBlocks
  | [(_, block)] => ⟨.zero, .ofUInt32 block, -1, 1, lastOrdinal totalBlocks, 1⟩
  | samples => fit samples totalBlocks

/-- The block of the table nearest to a position. -/
def clampBlock (model : FittedLine) (position : Int) : UInt32 :=
  UInt32.ofNat (max 0 (min position model.lastBlock.toNat)).toNat

/-- The predicted block and the range around it, all in the table. A model of no keys predicts the
whole table. -/
def predict (model : FittedLine) (input : UInt32) : Prediction :=
  if model.keyCount = 0 then ⟨0, 0, model.lastBlock⟩ else
  let position := model.nearestBlock input
  let last := model.clampBlock (saturate (position + model.maxError.toInt))
  let first := model.clampBlock (saturate (position + model.minError.toInt))
  ⟨model.clampBlock position, min first last, last⟩

/-- The width of the widest range, zero where the bounds are the wrong way round. -/
def errorRange (model : FittedLine) : UInt32 :=
  UInt32.ofNat (model.maxError.toInt - model.minError.toInt).toNat

/-- Bytes of a stored model. -/
def sizeBytes : Nat := 32

def toBytes (model : FittedLine) : Bytes :=
  LittleEndian.uint64 model.slope.bits ++ LittleEndian.uint64 model.intercept.bits ++
    LittleEndian.int32 model.minError ++ LittleEndian.int32 model.maxError ++
    LittleEndian.uint32 model.lastBlock ++ LittleEndian.uint32 model.keyCount

def reader : ByteReader FittedLine := do
  let slope ← ByteReader.uint64
  let intercept ← ByteReader.uint64
  let minError ← ByteReader.int32
  let maxError ← ByteReader.int32
  let lastBlock ← ByteReader.uint32
  let keyCount ← ByteReader.uint32
  return ⟨⟨slope⟩, ⟨intercept⟩, minError, maxError, lastBlock, keyCount⟩

/-- Equality of models by the values of their fields, so that a NaN agrees with nothing. -/
def sameValues (a b : FittedLine) : Bool :=
  a.slope.sameValue b.slope && a.intercept.sameValue b.intercept && a.minError == b.minError &&
    a.maxError == b.maxError && a.lastBlock == b.lastBlock && a.keyCount == b.keyCount

@[simp] theorem toBytes_length (model : FittedLine) : model.toBytes.length = sizeBytes := by
  simp [toBytes, sizeBytes]

end FittedLine

end BlockFilter
