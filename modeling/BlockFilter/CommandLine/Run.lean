import BlockFilter.CommandLine.Command
import BlockFilter.Directory
import BlockFilter.KeyFile
import BlockFilter.TableKeys

/-! What the commands do. Every command reads one file and then decides; only `build` writes, one file
and as its last step. So a command that fails has changed nothing. -/

namespace BlockFilter.CommandLine

/-- What a command leaves behind besides files: an exit code, printed text and reported events. -/
structure Report where
  exitCode : Nat
  output : String
  events : List Event
  deriving DecidableEq, Repr

/-- The report of a failure, after the events that came before it. -/
def Report.failure (events : List Event) (error : FilterError) : Report :=
  ⟨1, "", events ++ [.failed error]⟩

/-- What remains to be done once the input has been read. -/
inductive Action where
  | finish (report : Report)
  /-- Write a file. The report depends on whether that succeeds. -/
  | save (path : String) (contents : Bytes) (report : Except FileFault Unit → Report)

/-- The file that a command reads. -/
def Command.source : Command → String
  | build options => options.input
  | inspect path => path
  | query path _ _ => path

/-- Train a filter on a file of keys and save it. Faults show in this order: the settings, the input,
the keys, the output. -/
def BuildOptions.act (options : BuildOptions) (contents : Except FileFault Bytes) :
    Except Report Action := do
  options.config.check.mapError fun fault => Report.failure [] (.config fault)
  let contents ← contents.mapError fun fault => Report.failure [] (.file fault)
  let some keys := KeyFile.keys? contents | throw (Report.failure [] (.file .notText))
  let keysPerBlock := max options.keysPerBlock 1
  let totalBlocks := ceilDiv keys.length keysPerBlock
  let (set, refused) := TableKeys.empty.pushKeys (KeyFile.inBlocks keysPerBlock keys)
  if let some error := refused then throw (Report.failure [] error)
  let started := Event.trainingStarted options.config.kind keys.length totalBlocks
  let filter ← (set.train totalBlocks options.config).mapError (Report.failure [started])
  let trained :=
    started :: TableFilter.trainEvents set.hashes totalBlocks options.config (.ok filter)
  let block ← (FooterBlock.encode filter).mapError (Report.failure trained)
  return .save options.output block fun
    | .ok () => ⟨0, filter.stats.report ++ "\n", trained ++ [.fileWritten options.output]⟩
    | .error fault => Report.failure trained (.file fault)

/-- The filter in a file and what reading it reports. -/
def load (contents : Except FileFault Bytes) : Except Report TableFilter := do
  let block ← contents.mapError fun fault => Report.failure [] (.file fault)
  let filter := FooterBlock.decode block
  filter.mapError (Report.failure (FooterBlock.decodeEvents filter))

/-- The line that answers a query for a key. -/
def queryLine (key : String) : Lookup → String
  | .absent => s!"{key}: not present"
  | .present first last => s!"{key}: maybe present, scan blocks {first}..={last}"

/-- The action of a command on the contents of its source. -/
def Command.act (command : Command) (contents : Except FileFault Bytes) : Action :=
  let plan : Except Report Action := match command with
    | build options => options.act contents
    | inspect _ => do
        let filter ← load contents
        return .finish
          ⟨0, s!"kind:            {filter.kind.name}\n" ++ filter.stats.report ++ "\n", []⟩
    | query _ key ordinal => do
        let filter ← load contents
        let hash := KeyHash.ofBytes key.toUTF8.data.toList
        let answer := match ordinal with
          | some ordinal => filter.lookupAt hash ordinal
          | none => filter.lookup hash
        return .finish ⟨0, queryLine key answer ++ "\n", []⟩
  match plan with
  | .ok action => action
  | .error report => .finish report

/-- Carry a command out in a directory. -/
def Command.run (command : Command) (directory : Directory) : Report × Directory :=
  match command.act (directory.read command.source) with
  | .finish report => (report, directory)
  | .save path contents report =>
      match directory.write path contents with
      | .ok directory => (report (.ok ()), directory)
      | .error fault => (report (.error fault), directory)

/-! ## Whole command lines -/

/-- The version of the program. -/
def version : String := "0.1.0"

/-- The answer to a request for the version. -/
def versionReport : Report := ⟨0, s!"atlaskv-filter {version}\n", []⟩

/-- How commands are written, in short. -/
def usage : String :=
  "Usage: atlaskv-filter build -i KEYS -o FILTER [-k COUNT] [-b BYTES] [-f RATE]\n" ++
  "                            [--kind bloom|hybrid|bounds] [--position-input hash|ordinal]\n" ++
  "       atlaskv-filter inspect FILTER\n" ++
  "       atlaskv-filter query FILTER KEY [--ordinal RANK]\n"

/-- The exit code of a command line that asks for nothing that can be done. -/
def misuseCode : Nat := 2

/-- Answer a command line in a directory; there is no report for a misuse. -/
def answer (arguments : List String) (directory : Directory) : Option Report × Directory :=
  match parse arguments with
  | .run command =>
      let (report, directory) := command.run directory
      (some report, directory)
  | .version => (some versionReport, directory)
  | .help => (some ⟨0, usage, []⟩, directory)
  | .misuse => (none, directory)

end BlockFilter.CommandLine
