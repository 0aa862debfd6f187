/-! Arguments of a command: options that take a value, and positional arguments. An option is written
`--name value`, `--name=value`, `-n value`, `-nvalue` or `-n=value`. A value that is an argument of its
own may not look like an option. After `--` every argument is positional. -/

namespace BlockFilter.CommandLine

/-- Why the reading of arguments stops. -/
inductive Stop where
  | helpAsked
  | misuse
  deriving DecidableEq, Repr

/-- An option. `accept` takes a value into what has been read so far, or refuses it. -/
structure OptionSpec (σ : Type) where
  name : String
  letter : Option Char
  accept : String → σ → Option σ

/-- The options of a command and its positional arguments. -/
structure Grammar (σ : Type) where
  options : List (OptionSpec σ)
  positional : String → σ → Option σ

/-- The form of one argument. -/
inductive Shape where
  /-- The end of the options. -/
  | endOfOptions
  /-- An option by its name, perhaps with a value. -/
  | named (name : String) (value : Option String)
  /-- An option by its letter, perhaps with a value. -/
  | lettered (letter : Char) (value : Option String)
  | plain (text : String)
  deriving DecidableEq, Repr

/-- The value attached to a letter. An equals sign in front does not count. -/
def attached : List Char → Option String
  | [] => none
  | '=' :: value => some (String.ofList value)
  | value => some (String.ofList value)

/-- Tell the form of an argument by its dashes. A single dash is a plain argument. -/
def shape (argument : String) : Shape :=
  match argument.toList with
  | ['-', '-'] => .endOfOptions
  | '-' :: '-' :: rest =>
      let name := String.ofList (rest.takeWhile (· ≠ '='))
      match rest.dropWhile (· ≠ '=') with
      | [] => .named name none
      | _ :: value => .named name (some (String.ofList value))
  | '-' :: letter :: rest => .lettered letter (attached rest)
  | _ => .plain argument

/-- Whether an argument may stand as the value of the option before it. -/
def isValue (argument : String) : Bool :=
  match shape argument with
  | .plain _ => true
  | _ => false

/-- What was read after one more step, or a misuse where the step was refused. -/
def orMisuse {σ : Type} : Option σ → Except Stop σ
  | some found => .ok found
  | none => .error .misuse

/-- The option that an argument names, with the value that is attached to it. -/
def Grammar.option? {σ : Type} (grammar : Grammar σ) :
    Shape → Except Stop (OptionSpec σ × Option String)
  | .named name value =>
      if name = "help" then .error (if value.isNone then .helpAsked else .misuse)
      else (orMisuse (grammar.options.find? (·.name = name))).map (·, value)
  | .lettered letter value =>
      if letter = 'h' then .error .helpAsked
      else (orMisuse (grammar.options.find? (·.letter = some letter))).map (·, value)
  | _ => .error .misuse

/-- Read arguments from the left. The first one that does not fit decides. -/
def Grammar.read {σ : Type} (grammar : Grammar σ) : List String → σ → Except Stop σ
  | [], found => .ok found
  | argument :: rest, found =>
      match shape argument with
      | .endOfOptions =>
          rest.foldlM (fun found text => orMisuse (grammar.positional text found)) found
      | .plain text => do
          grammar.read rest (← orMisuse (grammar.positional text found))
      | form => do
          let (spec, value) ← grammar.option? form
          match value, rest with
          | some value, rest => grammar.read rest (← orMisuse (spec.accept value found))
          | none, value :: rest =>
              if isValue value then grammar.read rest (← orMisuse (spec.accept value found))
              else .error .misuse
          | none, [] => .error .misuse

end BlockFilter.CommandLine
