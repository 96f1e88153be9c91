import Formula.Outcome
import Formula.Token.Basic

/-! # Results of reading

Reading a phrase from a list of tokens leaves the tokens behind the phrase or, where it fails, those
from the error on. An error says what was looked for and which token stood there instead; no token
stands at the end of input.
-/

namespace Formula

inductive Place where
  | openParenthesis
  | closeParenthesis
  | argumentNames
deriving DecidableEq

def Place.describe : Place → String
  | openParenthesis => "to open a parenthesized expression"
  | closeParenthesis => "to close a parenthesized expression"
  | argumentNames => "in prototype"

/-- Why tokens do not form a construct. -/
inductive SyntaxError where
  | unexpected (found : Option Token)
  | expected (symbol : Char) (place : Place) (found : Option Token)
  | badSeparator (found : Option Token)
  | missingFunctionName (found : Option Token)
  | expectedKeyword (keyword : Token) (found : Option Token)
deriving DecidableEq

namespace SyntaxError

/-- The token at which the error was found. -/
def found : SyntaxError → Option Token
  | unexpected found => found
  | expected _ _ found => found
  | badSeparator found => found
  | missingFunctionName found => found
  | expectedKeyword _ found => found

def expectation : SyntaxError → String
  | unexpected _ => "unknown token when expecting an expression"
  | expected symbol place _ => "expected '" ++ symbol.toString ++ "' " ++ place.describe
  | badSeparator _ => "expected ')' or ',' in argument list"
  | missingFunctionName _ => "expected function name in prototype"
  | expectedKeyword keyword _ => "expected " ++ keyword.describe

def message (error : SyntaxError) : String :=
  error.expectation ++ ", found " ++ Token.describeNext error.found

end SyntaxError

/-- The outcome of reading a phrase; its state is the tokens that are left. -/
abbrev Parsed (α : Type) : Type := Outcome SyntaxError (List Token) α

/-- An outcome of reading that leaves no more than `n` tokens. -/
abbrev Parsed.Within (n : Nat) (α : Type) : Type :=
  { parsed : Parsed α // parsed.state.length ≤ n }

/-- The tokens behind a required character. -/
def Token.after? (c : Char) : List Token → Option (List Token)
  | .symbol d :: rest => if d = c then some rest else none
  | _ => none

theorem Token.after?_eq_some {c : Char} {tokens rest : List Token} :
    after? c tokens = some rest ↔ tokens = .symbol c :: rest := by
  unfold after?
  split
  · split <;> simp_all
  · simp_all

@[simp] theorem Token.after?_symbol (c : Char) (rest : List Token) :
    after? c (.symbol c :: rest) = some rest := after?_eq_some.mpr rfl

end Formula
