import Formula.Outcome
import Formula.Syntax.Basic

/-! # Lowering constructs

Lowering turns constructs into functions of a target. The target decides what a number, a name, an
operation or a call becomes, and keeps the functions. The absent target knows no function, and
whatever would build something there fails.

An expression is lowered operands first, from left to right. A function is declared, or
found as a declaration with as many arguments, before its body is lowered; if the body
fails, a function that was declared for it is removed again.
-/

namespace Formula

/-- Why a construct cannot be lowered. -/
inductive LoweringError where
  | unknownVariable (name : String)
  | unknownFunction (name : String)
  | arityMismatch (name : String) (expected found : Nat)
  | unknownOperator (op : Char)
  | reservedName (name : String)
  | redefinition (name : String)
  | signatureMismatch (name : String) (expected found : Nat)
  | noInsertionPoint
  | noTarget
deriving DecidableEq

def LoweringError.message : LoweringError → String
  | unknownVariable name => "unknown variable name " ++ name
  | unknownFunction name => "unknown function referenced " ++ name
  | arityMismatch name expected found =>
    "incorrect number of arguments passed to " ++ name ++ ": expected " ++ toString expected ++
      ", found " ++ toString found
  | unknownOperator op => "invalid binary operator '" ++ op.toString ++ "'"
  | reservedName name => name ++ " is reserved for top-level expressions"
  | redefinition name => "function " ++ name ++ " is already defined"
  | signatureMismatch name expected found =>
    name ++ " is declared with " ++ toString expected ++ " arguments but defined with " ++
      toString found
  | noInsertionPoint => "no function body is being built"
  | noTarget => "no lowering target attached"

/-- The outcome of a step of lowering; its state is the target. -/
abbrev Lowered (σ α : Type) : Type := Outcome LoweringError σ α

/-- A state `σ` that constructs can be lowered into. -/
class LoweringTarget (σ : Type) (Value Callable : outParam Type) where
  find? : σ → String → Option Callable
  arity : σ → Callable → Nat
  hasBody : σ → Callable → Bool
  /-- Make a function without a body. -/
  declare : σ → Prototype → Lowered σ Callable
  constant : σ → Binary64 → Lowered σ Value
  /-- The value of an argument of the function whose body is open. -/
  argument : σ → String → Lowered σ Value
  binary : σ → Char → Value → Value → Lowered σ Value
  call : σ → Callable → List Value → Lowered σ Value
  /-- Open a body in which the argument names of the prototype have values. -/
  beginBody : σ → Callable → Prototype → Lowered σ Unit
  /-- Close the open body and give it to the function. -/
  finishBody : σ → Callable → Value → Lowered σ Unit
  /-- Drop the open body. -/
  abandonBody : σ → Callable → σ
  /-- Remove a function. -/
  erase : σ → Callable → σ
  render : σ → Callable → String
  renderModule : σ → String

structure NoTarget where
deriving DecidableEq, Inhabited

instance : LoweringTarget NoTarget Unit Unit where
  find? _ _ := none
  arity _ _ := 0
  hasBody _ _ := false
  declare target _ := .error .noTarget target
  constant target _ := .error .noTarget target
  argument target _ := .error .noTarget target
  binary target _ _ _ := .error .noTarget target
  call target _ _ := .error .noTarget target
  beginBody target _ _ := .error .noTarget target
  finishBody target _ _ := .error .noTarget target
  abandonBody target _ := target
  erase target _ := target
  render _ _ := ""
  renderModule _ := ""

open LoweringTarget

variable {σ Value Callable : Type} [LoweringTarget σ Value Callable]

namespace Expr

mutual

def lower : Expr → σ → Lowered σ Value
  | number value, target => constant target value
  | reference name, target => argument target name
  | binary op lhs rhs, target =>
    (lhs.lower target).andThen fun lhs target =>
      (rhs.lower target).andThen fun rhs target => LoweringTarget.binary target op lhs rhs
  | call callee args, target =>
    match find? target callee with
    | none => .error (.unknownFunction callee) target
    | some callable =>
      if arity target callable = args.length then
        (lowerAll args target).andThen fun args target => LoweringTarget.call target callable args
      else .error (.arityMismatch callee (arity target callable) args.length) target

def lowerAll : List Expr → σ → Lowered σ (List Value)
  | [], target => .ok [] target
  | e :: rest, target =>
    (e.lower target).andThen fun value target => (lowerAll rest target).map (value :: ·)

end

end Expr

namespace Prototype

/-- Declare the function of this name, or find it as a declaration with as many arguments. -/
def declareOrFind (p : Prototype) (target : σ) : Lowered σ Callable :=
  match find? target p.name with
  | none => declare target p
  | some callable =>
    if hasBody target callable then .error (.redefinition p.name) target
    else if LoweringTarget.arity target callable = p.arity then .ok callable target
    else
      .error (.signatureMismatch p.name (LoweringTarget.arity target callable) p.arity) target

def lower (p : Prototype) (target : σ) : Lowered σ Callable :=
  if p.isAnonymous then .error (.reservedName p.name) target else p.declareOrFind target

end Prototype

namespace Definition

def lowerBody (d : Definition) (callable : Callable) (target : σ) : Lowered σ Unit :=
  (beginBody target callable d.prototype).andThen fun _ target =>
    (d.body.lower target).andThen fun result target => finishBody target callable result

/-- Drop the open body of a function, and the function itself if it was declared for the body. -/
def cleanUp (declaredBefore : Bool) (callable : Callable) (target : σ) : σ :=
  let target := abandonBody target callable
  if declaredBefore then target else erase target callable

/-- Lower a function with its body; an anonymous one never takes an existing name. -/
def lower (d : Definition) (target : σ) : Lowered σ Callable :=
  let declaredBefore := (find? target d.prototype.name).isSome
  if declaredBefore ∧ d.prototype.isAnonymous then .error (.reservedName d.prototype.name) target
  else
    (d.prototype.declareOrFind target).andThen fun callable target =>
      match d.lowerBody callable target with
      | .ok _ target => .ok callable target
      | .error cause target => .error cause (cleanUp declaredBefore callable target)

end Definition

def Construct.lower : Construct → σ → Lowered σ Callable
  | external p => p.lower
  | definition d => d.lower
  | expression e => (Definition.anonymous e).lower

end Formula
