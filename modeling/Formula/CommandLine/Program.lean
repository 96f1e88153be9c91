import Formula.CommandLine.Arguments
import Formula.Ssa.Module

/-! # The program

The program reads its arguments, runs one session over a file or over standard input,
and exits. All that the session writes goes to standard error.
-/

namespace Formula.CommandLine

def programName : String := "kaleido"

def version : String := "0.1.0"

inductive File where
  /-- The reads of an open file. -/
  | opened (reads : List ByteRead)
  /-- The file cannot be opened, for the given reason. -/
  | refused (reason : String)

structure Exit where
  code : UInt8
  stdout : ByteArray
  stderr : ByteArray

def UsageError.message : UsageError → String
  | unknownArgument word =>
    "Found argument '" ++ word ++ "' which wasn't expected, or isn't valid in this context"
  | emptyValue .precedence =>
    "The argument '--precedence <OP=PREC>...' requires a value but none was supplied"
  | emptyValue .prompt =>
    "The argument '--prompt <TEXT>' requires a value but none was supplied"
  | argumentConflict => "The argument '--parse-only' cannot be used with '--dump-module'"
  | invalidEntry cause => "Invalid value for '--precedence <OP=PREC>...': " ++ cause.message
  | repeatedArgument => "An argument was provided more than once, but cannot be used multiple times"
  | helpRequested =>
    programName ++ " [--parse-only] [--dump-module] [-p OP=PREC]... [--prompt TEXT] [-v]... [INPUT]"
  | versionRequested => programName ++ " " ++ version

def Exit.ofUsageError (cause : UsageError) : Exit :=
  match cause with
  | .helpRequested | .versionRequested => ⟨0, (cause.message ++ "\n").toUTF8, .empty⟩
  | _ => ⟨1, .empty, ("error: " ++ cause.message ++ "\n").toUTF8⟩

def Exit.ofRefusal (name reason : String) : Exit :=
  ⟨1, .empty,
    ("Error: failed to open " ++ name ++ "\n\nCaused by:\n    " ++ reason ++ "\n").toUTF8⟩

def Config.report (config : Config) (source : Cursor) : ByteArray :=
  let buffer := Buffer.empty none
  match config.mode with
  | .parseOnly =>
    let session : Session NoTarget Buffer := ⟨none, buffer, config.prompt, false⟩
    (session.run config.operators source).state.sink.bytes
  | .lower =>
    let session : Session Ssa.Module Buffer :=
      ⟨some (.empty programName), buffer, config.prompt, config.dumpsModule⟩
    (session.run config.operators source).state.sink.bytes

/-- The exit of the program, given its arguments, what it can open and its standard input. -/
def run (arguments : List String) (openFile : String → File) (stdin : List ByteRead) : Exit :=
  match Config.ofArguments arguments with
  | .error cause => .ofUsageError cause
  | .ok config =>
    match config.input with
    | none => ⟨0, .empty, config.report (.ofReads stdin)⟩
    | some name =>
      match openFile name with
      | .opened reads => ⟨0, .empty, config.report (.ofReads reads)⟩
      | .refused reason => .ofRefusal name reason

end Formula.CommandLine
