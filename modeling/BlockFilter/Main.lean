import BlockFilter.CommandLine.Run

/-! The command line program: it reads the file that a command names, lets the command decide, and
writes the file that it asks for. -/

namespace BlockFilter.CommandLine

/-- The fault behind an error of the operating system. -/
def fileFault (error : IO.Error) : FileFault :=
  match error with
  | .noFileOrDirectory _ code details => .system code.toNat details
  | .permissionDenied _ code details => .system code.toNat details
  | .inappropriateType _ code details => .system code.toNat details
  | .resourceExhausted _ code details => .system code.toNat details
  | .invalidArgument _ code details => .system code.toNat details
  | .alreadyExists _ code details => .system code.toNat details
  | .otherError code details => .system code.toNat details
  | error => .system 0 (toString error)

/-- Print events, a line each, and then the output. -/
def printReport (report : Report) : IO UInt32 := do
  for event in report.events do
    IO.println event.line
  IO.print report.output
  return UInt32.ofNat report.exitCode

/-- The result of an action, or the fault that stopped it. -/
def attempt {α : Type} (action : IO α) : IO (Except FileFault α) := do
  try
    return .ok (← action)
  catch error =>
    return .error (fileFault error)

def carryOut (command : Command) : IO UInt32 := do
  let contents ← attempt (IO.FS.readBinFile command.source)
  match command.act (contents.map fun bytes => bytes.data.toList) with
  | .finish report => printReport report
  | .save path contents report =>
      let written ← attempt (IO.FS.writeBinFile path (ByteArray.mk contents.toArray))
      printReport (report written)

end BlockFilter.CommandLine

open BlockFilter.CommandLine in
/-- Answer the command line that the program was started with. -/
def main (arguments : List String) : IO UInt32 :=
  match parse arguments with
  | .run command => carryOut command
  | .version => printReport versionReport
  | .help => printReport ⟨0, usage, []⟩
  | .misuse => do
      IO.eprint usage
      return UInt32.ofNat misuseCode
