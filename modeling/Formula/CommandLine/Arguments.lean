import Formula.Operator.Table
import Formula.Session.Basic

/-! # Command-line arguments

A command line chooses where the input comes from, what is done with it, and the operators that are
declared. Its words are options, option values and the input file. Short options may be joined in
one word, a value may stand in the word of its option or in the next one, and behind `--` every word
is a file. Unknown words and requests for help or version count where they stand; all other faults
are found when every word has been read.
-/

namespace Formula.CommandLine

inductive Mode where
  | parseOnly
  | lower
deriving DecidableEq

/-- The choices of a command line. -/
structure Config where
  /-- The file to read, or none for standard input. -/
  input : Option String
  mode : Mode
  dumpsModule : Bool
  operators : OperatorTable
  prompt : String
  verbosity : Nat
deriving DecidableEq

namespace Config

def default : Config := ⟨none, .lower, false, .standard, Session.defaultPrompt, 0⟩

def logDirective (config : Config) : String :=
  match config.verbosity with
  | 0 => "kaleido=warn"
  | 1 => "kaleido=info"
  | 2 => "kaleido=debug"
  | _ => "kaleido=trace"

end Config

inductive ValueOption where
  | precedence
  | prompt
deriving DecidableEq

/-- Why a command line gives no configuration. -/
inductive UsageError where
  | unknownArgument (word : String)
  | emptyValue (option : ValueOption)
  | argumentConflict
  | invalidEntry (cause : EntryError)
  | repeatedArgument
  | helpRequested
  | versionRequested
deriving DecidableEq

/-- What the words so far have given. -/
structure Words where
  inputs : List String
  parseOnly : Nat
  dumpModule : Nat
  verbose : Nat
  /-- How often each option with a value stood there. -/
  occurrences : ValueOption → Nat
  /-- The values of each option, in order. -/
  values : ValueOption → List String
  /-- The option that still waits for its value. -/
  awaiting : Option ValueOption
  /-- Whether all further words are files. -/
  onlyFiles : Bool

namespace Words

def empty : Words := ⟨[], 0, 0, 0, fun _ => 0, fun _ => [], none, false⟩

/-- Count an occurrence of an option, which waits for its value unless it comes with one. -/
def addOption (words : Words) (option : ValueOption) (value : Option (List Char)) : Words :=
  { words with
    occurrences := fun o => words.occurrences o + if o = option then 1 else 0
    values := fun o =>
      words.values o ++ if o = option then (value.map String.ofList).toList else []
    awaiting := if value.isNone then some option else none }

def addValue (words : Words) (option : ValueOption) (value : String) : Words :=
  { words with
    values := fun o => words.values o ++ if o = option then [value] else []
    awaiting := none }

def addInput (words : Words) (word : String) : Except UsageError Words :=
  if words.inputs = [] then .ok { words with inputs := [word] }
  else .error (.unknownArgument word)

def addLong (words : Words) (word : List Char) : Except UsageError Words :=
  let word := word.dropWhile (· == '-')
  let name := word.takeWhile (· != '=')
  let value :=
    match word.dropWhile (· != '=') with
    | [] => none
    | rest => some (rest.dropWhile (· == '='))
  match String.ofList name with
  | "precedence" => .ok (words.addOption .precedence value)
  | "prompt" => .ok (words.addOption .prompt value)
  | "parse-only" => .ok { words with parseOnly := words.parseOnly + 1, awaiting := none }
  | "dump-module" => .ok { words with dumpModule := words.dumpModule + 1, awaiting := none }
  | "help" => .error .helpRequested
  | "version" => .error .versionRequested
  | name => .error (.unknownArgument ("--" ++ name))

def addShort (words : Words) : List Char → Except UsageError Words
  | [] => .ok words
  | 'p' :: [] => .ok (words.addOption .precedence none)
  | 'p' :: value => .ok (words.addOption .precedence (some (value.dropWhile (· == '='))))
  | 'v' :: rest => addShort { words with verbose := words.verbose + 1, awaiting := none } rest
  | 'h' :: _ => .error .helpRequested
  | 'V' :: _ => .error .versionRequested
  | c :: _ => .error (.unknownArgument ("-" ++ c.toString))

def add (words : Words) (word : String) : Except UsageError Words :=
  if words.onlyFiles then words.addInput word
  else
    match word.toList with
    | ['-', '-'] => .ok { words with onlyFiles := true }
    | '-' :: '-' :: rest => words.addLong rest
    | '-' :: c :: rest => words.addShort (c :: rest)
    | _ =>
      match words.awaiting with
      | some option => .ok (words.addValue option word)
      | none => words.addInput word

def lacksValue (words : Words) (option : ValueOption) : Bool :=
  decide (0 < words.occurrences option) && (words.values option).isEmpty

def checkValue (words : Words) (option : ValueOption) : Except UsageError Unit :=
  if words.lacksValue option then .error (.emptyValue option) else .ok ()

def checkConflict (words : Words) : Except UsageError Unit :=
  if 0 < words.parseOnly ∧ 0 < words.dumpModule then .error .argumentConflict else .ok ()

def checkEntries (words : Words) : Except UsageError Unit :=
  ((words.values .precedence).forM OperatorEntry.validate).mapError .invalidEntry

/-- Refuse an option that stands there twice; operators and verbosity may. -/
def checkRepetition (words : Words) : Except UsageError Unit :=
  if 1 < words.occurrences .prompt ∨ 1 < words.parseOnly ∨ 1 < words.dumpModule then
    .error .repeatedArgument
  else .ok ()

def check (words : Words) : Except UsageError Unit := do
  words.awaiting.forM words.checkValue
  words.checkConflict
  words.checkValue .precedence
  words.checkEntries
  words.checkValue .prompt
  words.checkRepetition

/-- The configuration that the words choose. -/
def toConfig (words : Words) : Except EntryError Config := do
  let entries ← OperatorEntry.listOfTexts (words.values .precedence)
  return {
    input := words.inputs.head?
    mode := if 0 < words.parseOnly then .parseOnly else .lower
    dumpsModule := decide (0 < words.dumpModule)
    operators := OperatorTable.standard.extend entries
    prompt := (words.values .prompt).head?.getD Config.default.prompt
    verbosity := words.verbose }

end Words

/-- The configuration that a command line chooses; its words are checked before they are read. -/
def Config.ofArguments (arguments : List String) : Except UsageError Config := do
  let words ← arguments.foldlM Words.add .empty
  words.check
  words.toConfig.mapError .invalidEntry

end Formula.CommandLine
