import ShiftReduce.CommandLine.Run

/-! # The program

The command line on the real files and streams. -/

namespace ShiftReduce.CommandLine

/-- The cause of a failure that the system reported. -/
def FileError.ofSystem : IO.Error → FileError
  | .alreadyExists _ code details | .otherError code details | .resourceBusy code details
  | .resourceVanished code details | .unsupportedOperation code details
  | .hardwareFault code details | .unsatisfiedConstraints code details
  | .illegalOperation code details | .protocolError code details | .timeExpired code details
  | .interrupted _ code details | .invalidArgument _ code details | .permissionDenied _ code details
  | .resourceExhausted _ code details | .inappropriateType _ code details
  | .noSuchThing _ code details =>
    if code = 20 then .notDirectory
    else if code = 21 then .isDirectory
    else if code = 36 then .nameTooLong
    else .system code.toNat details
  | .noFileOrDirectory .. => .notFound
  | .unexpectedEof => .system 0 "unexpected end of file"
  | .userError details => .system 0 details

/-- Reads the input from a file or from the standard input. -/
def fetchInput (input : String) : IO (Except FileError String) := do
  try
    let bytes ←
      if isStandardInput input then (← IO.getStdin).readBinToEnd else IO.FS.readBinFile input
    return decodeText bytes
  catch e => return .error (.ofSystem e)

/-- Computes the tables and gives them out. -/
def deliver (a : Arguments) : IO UInt32 := do
  match prepare a (← fetchInput a.input) with
  | .error e =>
    IO.eprint e.message
    return 1
  | .ok d =>
    IO.eprint d.warnings
    match a.output with
    | none =>
      IO.print d.content
      return 0
    | some path =>
      try
        IO.FS.writeFile path d.content
        return 0
      catch e =>
        IO.eprint (RunError.unwritable path (.ofSystem e)).message
        return 1

end ShiftReduce.CommandLine

open ShiftReduce.CommandLine in
/-- Runs the program. -/
def main (args : List String) : IO UInt32 := do
  match Request.ofArguments? args with
  | none =>
    IO.eprint usage
    return 2
  | some .version =>
    IO.print versionLine
    return 0
  | some .help =>
    IO.print usage
    return 0
  | some (.tables a) => deliver a
