import BlockFilter.CommandLine.Arguments
import BlockFilter.Config
import BlockFilter.Decimal.Reading

/-! The commands and how they are written. `build` trains a filter over a file of keys, `inspect`
prints the figures of a stored filter, and `query` looks a key up. -/

namespace BlockFilter.CommandLine

/-- The settings of `build`. -/
structure BuildOptions where
  input : String
  output : String
  keysPerBlock : Nat
  config : Config
  deriving DecidableEq, Repr

inductive Command where
  | build (options : BuildOptions)
  | inspect (path : String)
  | query (path key : String) (ordinal : Option UInt32)
  deriving DecidableEq, Repr

/-- What a command line asks for. -/
inductive Request where
  | run (command : Command)
  | version
  | help
  | misuse
  deriving DecidableEq, Repr

/-! ## Values -/

/-- A path has at least one character. -/
def path? (text : String) : Option String := if text.isEmpty then none else some text

/-- A natural number of 64 bits. A plus sign may stand in front. -/
def size? (text : String) : Option Nat :=
  let digits := match text.toList with
    | '+' :: digits => digits
    | digits => digits
  (Decimal.natural? digits).filter (· < UInt64.size)

/-- An integer that fits 32 bits without a sign. Either sign may stand in front, so `-0` is zero. -/
def word? (text : String) : Option UInt32 :=
  let (negative, digits) := Decimal.splitSign text.toList
  ((Decimal.natural? digits).filter fun n => n < UInt32.size ∧ (negative → n = 0)).map UInt32.ofNat

def kind? : String → Option FilterKind
  | "bloom" => some .bloom
  | "hybrid" => some .hybrid
  | "bounds" => some .bounds
  | _ => none

def positionInput? : String → Option PositionInput
  | "hash" => some .keyHash
  | "ordinal" => some .ordinal
  | _ => none

/-- Take the value of an option that may be given once: `get` is the value so far, `put` stores
another. -/
def once {σ α : Type} (get : σ → Option α) (put : σ → α → σ) (read : String → Option α)
    (text : String) (found : σ) : Option σ :=
  if (get found).isSome then none else (read text).map (put found)

/-! ## Grammars -/

/-- The options of `build` that have been given. -/
structure BuildArguments where
  input : Option String := none
  output : Option String := none
  keysPerBlock : Option Nat := none
  bloomBytes : Option Nat := none
  rate : Option Binary64 := none
  kind : Option FilterKind := none
  positionInput : Option PositionInput := none

def buildGrammar : Grammar BuildArguments where
  options := [
    ⟨"input", some 'i', once (·.input) (fun found value => { found with input := value }) path?⟩,
    ⟨"output", some 'o', once (·.output) (fun found value => { found with output := value }) path?⟩,
    ⟨"keys-per-block", some 'k',
      once (·.keysPerBlock) (fun found value => { found with keysPerBlock := value }) size?⟩,
    ⟨"bloom-bytes", some 'b',
      once (·.bloomBytes) (fun found value => { found with bloomBytes := value }) size?⟩,
    ⟨"fp-rate", some 'f',
      once (·.rate) (fun found value => { found with rate := value }) Decimal.read?⟩,
    ⟨"kind", none, once (·.kind) (fun found value => { found with kind := value }) kind?⟩,
    ⟨"position-input", none,
      once (·.positionInput) (fun found value => { found with positionInput := value })
        positionInput?⟩]
  positional := fun _ _ => none

/-- The command that the options give. Input and output are required; the rest has defaults. -/
def BuildArguments.command? (found : BuildArguments) : Option Command := do
  let input ← found.input
  let output ← found.output
  let defaults : Config := {}
  return .build {
    input := input
    output := output
    keysPerBlock := found.keysPerBlock.getD 16
    config := {
      kind := found.kind.getD defaults.kind
      bloomBytes := found.bloomBytes.getD defaults.bloomBytes
      targetRate := found.rate.getD defaults.targetRate
      positionInput := found.positionInput.getD defaults.positionInput } }

/-- The path and, for a query, the key and its rank. -/
structure LookupArguments where
  path : Option String := none
  key : Option String := none
  ordinal : Option UInt32 := none

def inspectGrammar : Grammar LookupArguments where
  options := []
  positional := once (·.path) (fun found value => { found with path := value }) path?

def queryGrammar : Grammar LookupArguments where
  options := [
    ⟨"ordinal", none,
      once (·.ordinal) (fun found value => { found with ordinal := value }) word?⟩]
  positional := fun text found =>
    if found.path.isNone then (path? text).map fun value => { found with path := value }
    else if found.key.isNone then some { found with key := text }
    else none

/-- The request that arguments make, once they have been read. -/
def Grammar.request {σ : Type} (grammar : Grammar σ) (start : σ) (command? : σ → Option Command)
    (arguments : List String) : Request :=
  match grammar.read arguments start with
  | .ok found => ((command? found).map Request.run).getD .misuse
  | .error .helpAsked => .help
  | .error .misuse => .misuse

/-- The commands that help can be asked for. -/
def topics : List String := ["build", "inspect", "query", "help"]

/-- Read a command line, without the name of the program. The version and the help may be asked for
in place of a command. -/
def parse : List String → Request
  | [] => .misuse
  | "build" :: rest => buildGrammar.request {} BuildArguments.command? rest
  | "inspect" :: rest => inspectGrammar.request {} (fun found => found.path.map .inspect) rest
  | "query" :: rest =>
      queryGrammar.request {} (fun found => do
        return .query (← found.path) (← found.key) found.ordinal) rest
  | ["help"] => .help
  | "help" :: topic :: rest => if topics.contains topic ∧ rest.isEmpty then .help else .misuse
  | first :: _ =>
      match shape first with
      | .named "version" none => .version
      | .named "help" none => .help
      | .lettered 'V' _ => .version
      | .lettered 'h' _ => .help
      | _ => .misuse

end BlockFilter.CommandLine
