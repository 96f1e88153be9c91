import Formula.Binary64.Basic
import Formula.Text.Basic

/-! # Tokens

A text is read as keywords, names, numbers and single characters. There is no token for the end of
input: where a token is looked for, its absence means the end. Digits and points that stand together
are one numeral. Its value is that of its longest prefix which is a decimal, with at most one point
and at least one digit; a run without such a prefix has the value 0.
-/

namespace Formula

/-- A lexical unit of the language. -/
inductive Token where
  /-- The keyword that opens a definition. -/
  | define
  /-- The keyword that opens an external declaration. -/
  | external
  | identifier (name : String)
  | number (value : Binary64)
  /-- Any other character, operators and punctuation included. -/
  | symbol (c : Char)
deriving DecidableEq, Inhabited

namespace Token

def describe : Token → String
  | define => "'def'"
  | external => "'extern'"
  | identifier name => "identifier '" ++ name ++ "'"
  | number value => "number " ++ value.toText
  | symbol c => "'" ++ Text.escape c ++ "'"

def describeNext : Option Token → String
  | none => "end of input"
  | some token => token.describe

def ofWord (word : List Char) : Token :=
  if word = ['d', 'e', 'f'] then define
  else if word = ['e', 'x', 't', 'e', 'r', 'n'] then external
  else identifier (String.ofList word)

end Token

namespace Numeral

def isPart (c : Char) : Bool := c.isDigit || c == '.'

def decimal (whole fraction : List Char) : Decimal :=
  ⟨Nat.ofDigitChars 10 (whole ++ fraction) 0, -fraction.length⟩

/-- The longest decimal that a run of digits and points begins with. -/
def prefixDecimal? (run : List Char) : Option Decimal :=
  let whole := run.takeWhile Char.isDigit
  let fraction :=
    match run.dropWhile Char.isDigit with
    | '.' :: rest => rest.takeWhile Char.isDigit
    | _ => []
  if whole = [] ∧ fraction = [] then none else some (decimal whole fraction)

def value (run : List Char) : Binary64 :=
  match prefixDecimal? run with
  | some d => Binary64.ofDecimal d
  | none => Binary64.zero

end Numeral

end Formula
