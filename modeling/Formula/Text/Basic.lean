/-! # Characters and written integers

Blanks separate tokens and may surround a number: they are the characters with the Unicode property
White_Space. A message shows a character in printable ASCII. An integer is written as an optional
sign and ASCII digits, and reading one into 32 bits fails where the value does not fit.
-/

namespace Formula.Text

/-- The code points with the property White_Space, as inclusive ranges. -/
def blankRanges : List (Nat × Nat) :=
  [(0x09, 0x0D), (0x20, 0x20), (0x85, 0x85), (0xA0, 0xA0), (0x1680, 0x1680), (0x2000, 0x200A),
    (0x2028, 0x2029), (0x202F, 0x202F), (0x205F, 0x205F), (0x3000, 0x3000)]

def isBlank (c : Char) : Bool :=
  blankRanges.any fun range => decide (range.1 ≤ c.toNat) && decide (c.toNat ≤ range.2)

def trimBlanks (text : List Char) : List Char :=
  ((text.dropWhile isBlank).reverse.dropWhile isBlank).reverse

def hexadecimal (n : Nat) : String := String.ofList (Nat.toDigits 16 n)

/-- A character written in printable ASCII. -/
def escape (c : Char) : String :=
  match c with
  | '\t' => "\\t"
  | '\r' => "\\r"
  | '\n' => "\\n"
  | '\'' => "\\'"
  | '"' => "\\\""
  | '\\' => "\\\\"
  | _ =>
    if 0x20 ≤ c.toNat ∧ c.toNat ≤ 0x7E then c.toString
    else "\\u\x7b" ++ hexadecimal c.toNat ++ "\x7d"

def natOf? (text : List Char) : Option Nat :=
  if text ≠ [] ∧ text.all Char.isDigit then some (Nat.ofDigitChars 10 text 0) else none

def intOf? : List Char → Option Int
  | '-' :: digits => (natOf? digits).map fun n => -(n : Int)
  | '+' :: digits => (natOf? digits).map Int.ofNat
  | digits => (natOf? digits).map Int.ofNat

def int32Of? (text : List Char) : Option Int32 :=
  (intOf? text).bind fun n =>
    if h : Int32.minValue.toInt ≤ n ∧ n ≤ Int32.maxValue.toInt then
      some (Int32.ofIntLE n h.1 h.2)
    else none

end Formula.Text
