import Formula.Binary64.Basic

/-! # Expressions and constructs

An expression is built from numbers and names by binary operators and calls. Its text has
parentheses around every operation, so that the nesting does not depend on a table. Expressions
are compared node by node, and a property holds of all of them if every form passes it on from its
parts, where the arguments of a call all count as parts.

A program is a list of constructs: external declarations, definitions, and expressions
that stand alone. An expression that stands alone is wrapped in a function without
arguments, under a name that no text can spell.
-/

namespace Formula

/-- An expression of the language. -/
inductive Expr where
  | number (value : Binary64)
  | reference (name : String)
  | binary (op : Char) (lhs rhs : Expr)
  | call (callee : String) (args : List Expr)
deriving Inhabited

namespace Expr

mutual

def toText : Expr → String
  | number value => value.toText
  | reference name => name
  | binary op lhs rhs => "(" ++ lhs.toText ++ " " ++ op.toString ++ " " ++ rhs.toText ++ ")"
  | call callee args => callee ++ "(" ++ String.intercalate ", " (listToTexts args) ++ ")"

def listToTexts : List Expr → List String
  | [] => []
  | e :: rest => e.toText :: listToTexts rest

end

mutual

def decEq : (a b : Expr) → Decidable (a = b)
  | number v, number w =>
    if h : v = w then isTrue (by rw [h]) else isFalse (by simpa using h)
  | reference n, reference m =>
    if h : n = m then isTrue (by rw [h]) else isFalse (by simpa using h)
  | binary o a b, binary p c d =>
    match decEq a c, decEq b d with
    | isTrue h, isTrue h' =>
      if ho : o = p then isTrue (by rw [ho, h, h']) else isFalse (by simp [ho])
    | isFalse h, _ => isFalse (by simp [h])
    | _, isFalse h => isFalse (by simp [h])
  | call f as, call g bs =>
    match listDecEq as bs with
    | isTrue h =>
      if hf : f = g then isTrue (by rw [hf, h]) else isFalse (by simp [hf])
    | isFalse h => isFalse (by simp [h])
  | number _, reference _ | number _, binary .. | number _, call .. => isFalse nofun
  | reference _, number _ | reference _, binary .. | reference _, call .. => isFalse nofun
  | binary .., number _ | binary .., reference _ | binary .., call .. => isFalse nofun
  | call .., number _ | call .., reference _ | call .., binary .. => isFalse nofun

def listDecEq : (as bs : List Expr) → Decidable (as = bs)
  | [], [] => isTrue rfl
  | a :: as, b :: bs =>
    match decEq a b, listDecEq as bs with
    | isTrue h, isTrue h' => isTrue (by rw [h, h'])
    | isFalse h, _ => isFalse (by simp [h])
    | _, isFalse h => isFalse (by simp [h])
  | [], _ :: _ | _ :: _, [] => isFalse nofun

end

instance : DecidableEq Expr := decEq

/-- Induction with one hypothesis for all arguments of a call. -/
@[elab_as_elim, induction_eliminator]
theorem induction {motive : Expr → Prop} (number : ∀ value, motive (number value))
    (reference : ∀ name, motive (reference name))
    (binary : ∀ op lhs rhs, motive lhs → motive rhs → motive (binary op lhs rhs))
    (call : ∀ callee args, (∀ arg ∈ args, motive arg) → motive (call callee args)) :
    ∀ e, motive e
  | .number value => number value
  | .reference name => reference name
  | .binary op lhs rhs =>
    binary op lhs rhs (induction number reference binary call lhs)
      (induction number reference binary call rhs)
  | .call callee args =>
    call callee args fun arg _ => induction number reference binary call arg

mutual

/-- Callees and argument counts in the order in which the calls are made. -/
def calls : Expr → List (String × Nat)
  | number _ | reference _ => []
  | binary _ lhs rhs => lhs.calls ++ rhs.calls
  | call callee args => listCalls args ++ [(callee, args.length)]

def listCalls : List Expr → List (String × Nat)
  | [] => []
  | e :: rest => e.calls ++ listCalls rest

end

end Expr

/-- The name and the argument names of a function. -/
structure Prototype where
  name : String
  args : List String
deriving DecidableEq, Inhabited

namespace Prototype

def anonymousName : String := "__anon_expr"

def anonymous : Prototype := ⟨anonymousName, []⟩

def arity (p : Prototype) : Nat := p.args.length

def isAnonymous (p : Prototype) : Bool := p.name == anonymousName

def toText (p : Prototype) : String := p.name ++ "(" ++ String.intercalate " " p.args ++ ")"

end Prototype

structure Definition where
  prototype : Prototype
  body : Expr
deriving DecidableEq, Inhabited

/-- The function around an expression that stands alone. -/
def Definition.anonymous (body : Expr) : Definition := ⟨.anonymous, body⟩

/-- A top-level part of a program. -/
inductive Construct where
  | external (p : Prototype)
  | definition (d : Definition)
  | expression (e : Expr)
deriving DecidableEq, Inhabited

end Formula
