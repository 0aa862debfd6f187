import BlockFilter.Bytes.LittleEndian

/-! Files of keys. A file is UTF-8 text with a key on each line; blank lines and repetitions do not
count, and the keys are taken in byte order. -/

namespace BlockFilter.KeyFile

/-- A line that a line feed ended, without the carriage return that may stand before it. The line is
given backwards. -/
def dropReturn : Bytes → Bytes
  | 13 :: line => line
  | line => line

/-- Take in one byte: the lines that have ended and the current line, both backwards. -/
def step : List Bytes × Bytes → UInt8 → List Bytes × Bytes
  | (ended, current), byte =>
      if byte = 10 then ((dropReturn current).reverse :: ended, []) else (ended, byte :: current)

/-- The lines of a file. What follows the last line feed is a line if it is not empty. -/
def lines (contents : Bytes) : List Bytes :=
  let (ended, current) := contents.foldl step ([], [])
  (if current.isEmpty then ended else current.reverse :: ended).reverse

/-- The distinct lines that are not empty, in byte order. -/
def distinctLines (contents : Bytes) : List Bytes :=
  (((lines contents).filter (!·.isEmpty)).mergeSort fun a b => !decide (b < a)).eraseReps

/-- The keys of a file, or `none` if it is not text. -/
def keys? (contents : Bytes) : Option (List Bytes) :=
  if (ByteArray.mk contents.toArray).validateUTF8 then some (distinctLines contents) else none

/-- Each key with its block: blocks take `keysPerBlock` keys each, in order. -/
def inBlocks (keysPerBlock : Nat) (keys : List Bytes) : List (Bytes × UInt32) :=
  keys.zipIdx.map fun (key, rank) => (key, UInt32.ofNat (rank / keysPerBlock))

end BlockFilter.KeyFile
