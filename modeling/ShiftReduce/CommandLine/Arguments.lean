/-! # Arguments of the command line

Options may stand before and after the one positional argument, which names the input. An option takes
its value from the same argument or from the next one, which then must not look like an option. The
arguments are read from left to right, and the first one that is wrong or asks for information ends the
reading. -/

namespace ShiftReduce.CommandLine

/-- The form in which the tables are given out. -/
inductive Format where
  /-- the sheet as indented JSON -/
  | json
  /-- the report -/
  | text
  deriving DecidableEq

/-- What is to be done. -/
structure Arguments where
  /-- the form of the output -/
  format : Format
  /-- the file for the output, if it does not go to the standard output -/
  output : Option String
  /-- whether conflicts are reported -/
  reportConflicts : Bool
  /-- the file with the rule list, or `-` for the standard input -/
  input : String
  deriving DecidableEq

/-- What the arguments ask for. -/
inductive Request where
  /-- the tables of a rule list -/
  | tables (arguments : Arguments)
  /-- the name and version of the program -/
  | version
  /-- how the program is called -/
  | help
  deriving DecidableEq

/-! ## Single arguments -/

/-- An option that takes a value. -/
inductive ValueOption where
  /-- the form of the output -/
  | format
  /-- the file for the output -/
  | output
  deriving DecidableEq

/-- How a single argument reads as long as options are allowed. -/
inductive Word where
  /-- a positional argument, or the value of the option before it -/
  | value (text : String)
  /-- an option, perhaps with its value -/
  | option (option : ValueOption) (attached : Option String)
  /-- the option that reports conflicts -/
  | reportConflicts
  /-- the option that asks for the version -/
  | version
  /-- the option that asks for help -/
  | help
  /-- the mark behind which all arguments are positional -/
  | endOfOptions
  /-- anything else -/
  | unknown
  deriving DecidableEq

/-- The name and the value of a long option, at its first equals sign. -/
def splitLong (arg : String) : String × Option String :=
  match arg.toList.span (· ≠ '=') with
  | (name, []) => (String.ofList name, none)
  | (name, _ :: value) => (String.ofList name, some (String.ofList value))

/-- Reads an argument that begins with two dashes. -/
def Word.ofLong (arg : String) : Word :=
  match splitLong arg with
  | ("--", none) => .endOfOptions
  | ("--format", attached) => .option .format attached
  | ("--output", attached) => .option .output attached
  | ("--report-conflicts", none) => .reportConflicts
  | ("--version", none) => .version
  | ("--help", none) => .help
  | _ => .unknown

/-- Reads the letters of an argument that begins with one dash. -/
def Word.ofShort : List Char → Word
  | ['o'] => .option .output none
  | 'o' :: '=' :: attached => .option .output (some (String.ofList attached))
  | 'o' :: attached => .option .output (some (String.ofList attached))
  | 'V' :: _ => .version
  | 'h' :: _ => .help
  | _ => .unknown

/-- Reads an argument. -/
def Word.ofArgument (arg : String) : Word :=
  match arg.toList with
  | '-' :: '-' :: _ => .ofLong arg
  | '-' :: c :: rest => .ofShort (c :: rest)
  | _ => .value arg

/-! ## All arguments -/

/-- What the arguments so far have said. -/
structure Scan where
  /-- the form of the output -/
  format : Option Format := none
  /-- the file for the output -/
  output : Option String := none
  /-- whether conflicts are reported -/
  reportConflicts : Bool := false
  /-- the input -/
  input : Option String := none
  /-- the option that still needs a value -/
  pending : Option ValueOption := none

namespace Scan

/-- Sets the value of an option, which must not have one already. -/
def setOption? (s : Scan) : ValueOption → String → Option Scan
  | .format, value =>
    if s.format.isSome then none
    else if value = "json" then some { s with format := some .json, pending := none }
    else if value = "text" then some { s with format := some .text, pending := none }
    else none
  | .output, value =>
    if s.output.isSome ∨ value = "" then none
    else some { s with output := some value, pending := none }

/-- Sets the input, of which there must be only one. -/
def setInput? (s : Scan) (value : String) : Option Scan :=
  if s.input.isSome ∨ value = "" then none else some { s with input := some value }

/-- What the arguments have asked for, when there are no more. -/
def finish? (s : Scan) : Option Request :=
  match s.pending, s.input with
  | none, some input =>
    some (.tables ⟨s.format.getD .json, s.output, s.reportConflicts, input⟩)
  | _, _ => none

/-- Reads arguments that are all positional. -/
def positionals? (s : Scan) : List String → Option Request
  | [] => s.finish?
  | arg :: rest => (s.setInput? arg).bind (·.positionals? rest)

/-- Reads arguments. -/
def arguments? (s : Scan) : List String → Option Request
  | [] => s.finish?
  | arg :: rest =>
    match s.pending, Word.ofArgument arg with
    | some option, .value value => (s.setOption? option value).bind (·.arguments? rest)
    | some _, _ => none
    | none, .value value => (s.setInput? value).bind (·.arguments? rest)
    | none, .option option (some value) => (s.setOption? option value).bind (·.arguments? rest)
    | none, .option option none => arguments? { s with pending := some option } rest
    | none, .reportConflicts =>
      if s.reportConflicts then none else arguments? { s with reportConflicts := true } rest
    | none, .version => some .version
    | none, .help => some .help
    | none, .endOfOptions => s.positionals? rest
    | none, .unknown => none

end Scan

/-- What arguments ask for, if they are in order. -/
def Request.ofArguments? (args : List String) : Option Request := Scan.arguments? {} args

end ShiftReduce.CommandLine
