import Formula.Grammar.Program
import Formula.Lowering.Basic

/-! # Sessions

A session takes its tokens apart into items: a semicolon, a construct, or a fault. A
fault takes the tokens up to the error and the one at which it was found.

It handles item after item, reports on each one and prompts for the next. It
lowers constructs if it has a target and only acknowledges them if it has none. A report
that cannot be written ends a run, but not the session: its target stays as it is.

What it writes goes to a sink, which may refuse a text. A buffer keeps what was written as bytes, up
to a limit: a text that does not fit is kept as far as it fits, and its writing fails.
-/

namespace Formula

structure WriteError where
  message : String
deriving DecidableEq

/-- A state that texts can be written to. -/
class Sink (S : Type) where
  write : S → String → Outcome WriteError S Unit

/-- Written bytes, and how many there may be. -/
structure Buffer where
  bytes : ByteArray
  limit : Option Nat

namespace Buffer

def empty (limit : Option Nat) : Buffer := ⟨.empty, limit⟩

/-- How many of `n` bytes still fit. -/
def room (buffer : Buffer) (n : Nat) : Nat :=
  match buffer.limit with
  | none => n
  | some limit => min n (limit - buffer.bytes.size)

instance : Sink Buffer where
  write buffer text :=
    let bytes := text.toUTF8
    let room := buffer.room bytes.size
    let written := { buffer with bytes := buffer.bytes ++ bytes.extract 0 room }
    if room = bytes.size then .ok () written else .error ⟨"sink full"⟩ written

end Buffer

/-- What a session handles at a time. -/
inductive Item where
  | separator
  | construct (c : Construct)
  | fault (cause : SyntaxError)
deriving DecidableEq

namespace Item

def next (table : OperatorTable) (tokens : List Token) : Item × List Token :=
  match Token.after? ';' tokens with
  | some rest => (separator, rest)
  | none =>
    match Construct.parse table tokens with
    | .ok c rest => (construct c, rest)
    | .error cause rest => (fault cause, rest.tail)

theorem length_next_lt {table : OperatorTable} {tokens : List Token} (h : tokens ≠ []) :
    (next table tokens).2.length < tokens.length := by
  have nonempty := List.length_pos_iff.mpr h
  unfold next
  split
  next rest eq => rw [Token.after?_eq_some.mp eq]; simp
  next =>
    split
    next c rest eq => exact Construct.length_parse_lt eq
    next cause rest eq =>
      have le := Construct.length_parse_le table tokens
      rw [eq, Outcome.state_error] at le
      simp only [List.length_tail]
      omega

def all (table : OperatorTable) (tokens : List Token) : List Item :=
  if _h : tokens = [] then []
  else (next table tokens).1 :: all table (next table tokens).2
termination_by tokens.length
decreasing_by exact length_next_lt _h

end Item

open LoweringTarget

variable {σ Value Callable : Type} [LoweringTarget σ Value Callable]

def errorLine (message : String) : String := "Error: " ++ message ++ "\n"

namespace Construct

def acknowledgement : Construct → String
  | definition _ => "Parsed a function definition.\n"
  | external _ => "Parsed an extern\n"
  | expression _ => "Parsed a top-level expr\n"

def heading : Construct → String
  | definition _ => "Read function definition:\n"
  | external _ => "Read extern: "
  | expression _ => "Read top-level expression:\n"

/-- Whether the function that a construct was lowered to is only shown and not kept. -/
def isTransient : Construct → Bool
  | expression _ => true
  | _ => false

/-- Lower a construct and report on it. -/
def lowerAndReport (c : Construct) (target : σ) : String × σ :=
  match c.lower target with
  | .ok callable target =>
    (c.heading ++ render target callable,
      if c.isTransient then erase target callable else target)
  | .error cause target => (errorLine cause.message, target)

end Construct

/-- What an item does to the target, and the report on it; a separator has none. -/
def Item.handle (item : Item) (target : Option σ) : Option String × Option σ :=
  match item, target with
  | separator, target => (none, target)
  | fault cause, target => (some (errorLine cause.message), target)
  | construct c, none => (some c.acknowledgement, none)
  | construct c, some target =>
    let (report, target) := c.lowerAndReport target
    (some report, some target)

/-- A session over the target `σ` that writes to the sink `S`. -/
structure Session (σ S : Type) where
  target : Option σ
  sink : S
  prompt : String
  /-- Whether a run ends with the text of the whole module. -/
  dumpsModule : Bool

namespace Session

variable {S : Type} [Sink S]

def defaultPrompt : String := "ready> "

/-- The outcome of writing in a session; its state is the session. -/
abbrev Written (σ S : Type) : Type := Outcome WriteError (Session σ S) Unit

def write (session : Session σ S) (text : String) : Written σ S :=
  match Sink.write session.sink text with
  | .ok _ sink => .ok () { session with sink }
  | .error cause sink => .error cause { session with sink }

def showPrompt (session : Session σ S) : Written σ S := session.write session.prompt

/-- Handle one item, report on it and prompt for the next. -/
def step (session : Session σ S) (item : Item) : Written σ S :=
  let (report, target) := item.handle session.target
  let session := { session with target }
  match report with
  | none => session.showPrompt
  | some text => (session.write text).andThen fun _ session => session.showPrompt

def steps (session : Session σ S) : List Item → Written σ S
  | [] => .ok () session
  | item :: rest => (session.step item).andThen fun _ session => session.steps rest

def dump (session : Session σ S) : Written σ S :=
  match session.dumpsModule, session.target with
  | true, some target => session.write (renderModule target)
  | _, _ => .ok () session

/-- Prompt, handle all tokens of a source, and dump the module. -/
def run (session : Session σ S) (table : OperatorTable) (source : Cursor) : Written σ S :=
  session.showPrompt.andThen fun _ session =>
    (session.steps (Item.all table source.tokens)).andThen fun _ session => session.dump

end Session

end Formula
