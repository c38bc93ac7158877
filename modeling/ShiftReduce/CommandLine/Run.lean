import ShiftReduce.CommandLine.Arguments
import ShiftReduce.CommandLine.Files
import ShiftReduce.RuleList
import ShiftReduce.Sheet

/-! # Running the command line

A run reads the rule list, computes the tables, warns about what is suspicious in them, and gives them
out. A run that fails names the step that failed and the cause. -/

namespace ShiftReduce.CommandLine

/-! ## The input -/

/-- Whether an input is the standard input: a dash. Slashes and single dots behind it change nothing, as
they do not make it another path. -/
def isStandardInput (input : String) : Bool :=
  match pathParts input with
  | "-" :: rest => rest.all fun part => part = "" ∨ part = "."
  | _ => false

section Input

variable {ν α : Type} [DecidableEq ν] [Content α] [FileSystem ν α]

/-- The text that was found in a file or in the standard input. -/
def decodeText (content : α) : Except FileError String :=
  match Content.text? content with
  | some text => .ok text
  | none => .error .notText

/-- The text of the input: of a file, or of the standard input, whose bytes are given. -/
def readInput (files : Files ν α) (stdin : ByteArray) (input : String) : Except FileError String :=
  if isStandardInput input then decodeText stdin
  else
    match FileSystem.read files input with
    | .error e => .error e
    | .ok content => decodeText content

end Input

/-! ## Failures -/

/-- Why a run fails. -/
inductive RunError where
  /-- the input cannot be read -/
  | unreadable (input : String) (cause : FileError)
  /-- the input is not a rule list -/
  | notRuleList (input : String)
  /-- the rule list is not a grammar -/
  | invalidGrammar (cause : GrammarError)
  /-- the output cannot be written -/
  | unwritable (output : String) (cause : FileError)
  deriving DecidableEq

/-- The step that failed. -/
def RunError.context : RunError → String
  | .unreadable input _ =>
    if isStandardInput input then "failed to read the rule list from stdin"
    else "failed to read " ++ input
  | .notRuleList input => "failed to parse the rule list in " ++ input
  | .invalidGrammar _ => "invalid grammar"
  | .unwritable output _ => "failed to write the result to " ++ output

/-- The cause of the failure. -/
def RunError.cause : RunError → String
  | .unreadable _ e => e.message
  | .notRuleList _ => "not a JSON list of rules"
  | .invalidGrammar e => e.message
  | .unwritable _ e => e.message

/-- What is said about a failure. Further lines of the cause are indented like the first. -/
def RunError.message (e : RunError) : String :=
  "Error: " ++ e.context ++ "\n\nCaused by:\n    " ++
    "\n    ".intercalate (e.cause.splitOn "\n") ++ "\n"

/-! ## Tables and warnings -/

/-- The tables of a text that holds a rule list. -/
def tablesOf (input : String) (source : String) : Except RunError Tables :=
  match readRuleList? source with
  | none => .error (.notRuleList input)
  | some defs =>
    match Tables.ofRules defs with
    | .error e => .error (.invalidGrammar e)
    | .ok t => .ok t

/-- The warning about nonterminals without rules. -/
def unresolvedWarning (t : Tables) : String :=
  let names := t.grammar.unresolved.map fun n => "\"" ++ t.grammar.nonterminalName n ++ "\""
  if names.isEmpty then ""
  else
    lines ["[warning] The following nonterminals have no associated production rule: [" ++
      ", ".intercalate names ++ "]"]

/-- The line that tells how many conflicts there are. -/
def conflictHeading (count : Nat) : String :=
  "[warning] The parse table has " ++ toString count ++ " conflict" ++
    (if count = 1 then "" else "s") ++ ":"

/-- The warning about conflicts, with an entry for each. -/
def conflictWarning (t : Tables) : String :=
  let conflicts := t.table.conflicts
  if conflicts.isEmpty then ""
  else lines (conflictHeading conflicts.length :: conflicts.map fun c => "  " ++ c.text t.grammar)

/-- All warnings that were asked for. -/
def warnings (a : Arguments) (t : Tables) : String :=
  unresolvedWarning t ++ (if a.reportConflicts then conflictWarning t else "")

/-- The tables in a form. -/
def rendering (format : Format) (t : Tables) : String :=
  match format with
  | .json => (Sheet.ofTables t).toJson.indented
  | .text => t.text

/-- What a run gives out when nothing failed before. -/
structure Delivery where
  /-- the warnings -/
  warnings : String
  /-- the tables in the form that was asked for, closed by a line feed -/
  content : String

/-- Computes what is to be given out from the text of the input. -/
def prepare (a : Arguments) (input : Except FileError String) : Except RunError Delivery :=
  match input with
  | .error e => .error (.unreadable a.input e)
  | .ok source =>
    match tablesOf a.input source with
    | .error e => .error e
    | .ok t => .ok ⟨warnings a t, rendering a.format t ++ "\n"⟩

/-! ## Runs -/

/-- What a run leaves behind. -/
structure Outcome (ν α : Type) where
  /-- the exit code -/
  code : Nat
  /-- what is written to the standard output -/
  stdout : String
  /-- what is written to the standard error -/
  stderr : String
  /-- the files afterwards -/
  files : Files ν α

/-- The name and version of the program. -/
def versionLine : String := "slrgen-cli 0.0.0-dev\n"

/-- How the program is called. -/
def usage : String := lines [
  "Usage: [--format json|text] [--output PATH] [--report-conflicts] INPUT",
  "",
  "Reads a JSON list of production rules from INPUT (`-` for the standard input)",
  "and gives out its SLR(1) parse tables."]

variable {ν α : Type} [DecidableEq ν] [Content α] [FileSystem ν α]

/-- What a run leaves behind that gives out a delivery. -/
def Delivery.outcome (d : Delivery) (files : Files ν α) (output : Option String) : Outcome ν α :=
  match output with
  | none => ⟨0, d.content, d.warnings, files⟩
  | some path =>
    match FileSystem.write files path d.content with
    | .ok written => ⟨0, "", d.warnings, written⟩
    | .error e => ⟨1, "", d.warnings ++ (RunError.unwritable path e).message, files⟩

/-- Runs a request for tables. -/
def runTables (files : Files ν α) (stdin : ByteArray) (a : Arguments) : Outcome ν α :=
  match prepare a (readInput files stdin a.input) with
  | .error e => ⟨1, "", e.message, files⟩
  | .ok d => d.outcome files a.output

/-- Runs the program with some files, bytes on the standard input, and arguments. -/
def run (files : Files ν α) (stdin : ByteArray) (args : List String) : Outcome ν α :=
  match Request.ofArguments? args with
  | none => ⟨2, "", usage, files⟩
  | some .version => ⟨0, versionLine, "", files⟩
  | some .help => ⟨0, usage, "", files⟩
  | some (.tables a) => runTables files stdin a

end ShiftReduce.CommandLine
