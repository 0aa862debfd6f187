import BlockFilter.Bytes.Reader
import BlockFilter.Config
import BlockFilter.Decimal.Shortest
import BlockFilter.Text

/-! The causes of failure and their wording. -/

namespace BlockFilter

/-- Why a file cannot be read or written. -/
inductive FileFault where
  /-- The operating system refuses, with a code and a description. -/
  | system (code : Nat) (description : String)
  /-- A file of keys is not text. -/
  | notText
  deriving DecidableEq, Repr

namespace FileFault

def notFound : FileFault := .system 2 "No such file or directory"

def notFolder : FileFault := .system 20 "Not a directory"

def isFolder : FileFault := .system 21 "Is a directory"

def nameTooLong : FileFault := .system 36 "File name too long"

def message : FileFault → String
  | .system code description => s!"{description} (os error {code})"
  | .notText => "stream did not contain valid UTF-8"

end FileFault

/-- Why the contents of a stored filter cannot be right. -/
inductive BlockFault where
  | wrongMagic (found : Bytes)
  | unsupportedVersion (version : Nat)
  | checksumMismatch (stored computed : UInt32)
  /-- The stated size leaves no 64-bit number for the whole. -/
  | sizeOverflow (bloomBytes : Nat)
  deriving DecidableEq, Repr

def BlockFault.message : BlockFault → String
  | .wrongMagic found => s!"invalid magic: expected AKVF, got {Text.byteList found}"
  | .unsupportedVersion version => s!"unsupported version: {version}"
  | .checksumMismatch stored computed =>
      s!"CRC mismatch: stored {Text.hexWord stored}, computed {Text.hexWord computed}"
  | .sizeOverflow bloomBytes => s!"bloom size {bloomBytes} overflows"

/-- Why the metadata of a block cannot be read or written. -/
inductive MetadataFault where
  | endOfInput
  /-- An index that names none of the `count` choices. -/
  | unknownChoice (index : UInt32) (count : Nat)
  /-- A bit array whose size does not fit its field. -/
  | bloomTooLarge (bloomBytes : Nat)
  deriving DecidableEq, Repr

def MetadataFault.message : MetadataFault → String
  | .endOfInput => "io error: unexpected end of file"
  | .unknownChoice index count =>
      s!"invalid value: integer `{index}`, expected variant index 0 <= i < {count}"
  | .bloomTooLarge bloomBytes => s!"bloom of {bloomBytes} bytes does not fit the footer block"

/-- Why a table's keys cannot be trained on. -/
inductive TrainingFault where
  | lengthMismatch (hashes blocks : Nat)
  | blockOutside (block : UInt32) (totalBlocks : Nat)
  | noBlocks (keys : Nat)
  deriving DecidableEq, Repr

def TrainingFault.message : TrainingFault → String
  | .lengthMismatch hashes blocks => s!"{hashes} key hashes but {blocks} block indices"
  | .blockOutside block totalBlocks =>
      s!"block index {block} outside table of {totalBlocks} blocks"
  | .noBlocks keys => s!"{keys} keys in a table with no blocks"

def ConfigFault.message : ConfigFault → String
  | .bloomTooSmall bytes => s!"bloom_size_bytes must be at least {minBloomBytes}, got {bytes}"
  | .rateOutOfRange rate => s!"target_fp_rate must be in (0, 1), got {Decimal.shortest rate}"
  | .bitsPerKeyOutOfRange bits => s!"bits_per_key must be in 1..={maxBitsPerKey}, got {bits}"

/-- The failures of the library. -/
inductive FilterError where
  | file (fault : FileFault)
  /-- Too few bytes for what they are said to hold. -/
  | truncated (expected actual : Nat)
  | corrupted (fault : BlockFault)
  | metadata (fault : MetadataFault)
  | trainingSet (fault : TrainingFault)
  /-- A key of an earlier block was offered after one of a later block. -/
  | outOfOrder (previous next : UInt32)
  | config (fault : ConfigFault)
  deriving DecidableEq, Repr

def FilterError.message : FilterError → String
  | .file fault => s!"IO error: {fault.message}"
  | .truncated expected actual =>
      s!"Truncated filter data: expected at least {expected} bytes, got {actual}"
  | .corrupted fault => s!"Corrupted filter block: {fault.message}"
  | .metadata fault => s!"Serialization error: {fault.message}"
  | .trainingSet fault => s!"Invalid training set: {fault.message}"
  | .outOfOrder previous next =>
      s!"Block index went backwards: {next} appended after {previous}"
  | .config fault => s!"Configuration error: {fault.message}"

/-- Read from the front of a byte string, or fail for want of `expected` bytes in `actual`. -/
def readOr {α : Type} (reader : ByteReader α) (expected actual : Nat) (input : Bytes) :
    Except FilterError (α × Bytes) :=
  match reader.run input with
  | some result => .ok result
  | none => .error (.truncated expected actual)

end BlockFilter
