/-! # Binary floating-point numbers

A number of the language is an IEEE 754 double, kept as its bits. The bits below the sign are its
magnitude: read as a natural number they are ordered as the values are, so that rounding works on
magnitudes alone. A ratio is rounded to the nearest magnitude, and one halfway between two of them
to the even one; what lies beyond the largest finite number becomes infinity. A decimal is rounded
as the ratio that it denotes.

A finite number is written with the fewest digits that read back to it, and with the nearest such
digits. Multiplied by `10 ^ 1074` every finite value is a natural number, so the candidates of each
length are that number cut after its leading digits, and the next one on the same grid. The whole
number stands as the last candidate and always reads back.

A layout says which decimals are written with an exponent and whether a whole number that is
written without one gets a fraction. The plain layout never writes an exponent. The compact layout
writes one for very small and very large numbers, and a fraction wherever it writes none.
-/

namespace Formula

/-- The number `coefficient * 10 ^ exponent`. -/
structure Decimal where
  coefficient : Nat
  exponent : Int
deriving DecidableEq

/-- A double-precision number, given by its bits. -/
structure Binary64 where
  bits : UInt64
deriving DecidableEq, Inhabited

namespace Binary64

def isNegative (x : Binary64) : Bool := decide (Nat.pow 2 63 ≤ x.bits.toNat)

/-- The bits below the sign. -/
def magnitude (x : Binary64) : Nat := x.bits.toNat % Nat.pow 2 63

/-- The magnitude of infinity: all exponent bits and no fraction. -/
def infinite : Nat := 0x7FF * Nat.pow 2 52

def isFinite (x : Binary64) : Bool := decide (x.magnitude < infinite)

def isNaN (x : Binary64) : Bool := decide (infinite < x.magnitude)

def ofMagnitude (n : Nat) : Binary64 := ⟨UInt64.ofNat n⟩

def zero : Binary64 := ofMagnitude 0

/-- The exponent of two that scales the significand of a magnitude, counted from `2 ^ -1074`. -/
def scale (n : Nat) : Nat := n / Nat.pow 2 52 - 1

/-- The significand of a magnitude; that of a normal number has an implicit leading bit. -/
def significand (n : Nat) : Nat :=
  if n < Nat.pow 2 52 then n else Nat.pow 2 52 + n % Nat.pow 2 52

/-- The value of a finite magnitude, in units of `2 ^ -1074`. -/
def units (n : Nat) : Nat := significand n * Nat.pow 2 (scale n)

def nearestEven (num den : Nat) : Nat :=
  let floor := num / den
  let rest := 2 * (num % den)
  if rest < den ∨ (rest = den ∧ floor % 2 = 0) then floor else floor + 1

/--
The magnitude nearest to a ratio. The quotient in units of `2 ^ -1074` is scaled down until
53 bits are left of it; a significand that rounds up to `2 ^ 53` carries into the scale.
-/
def magnitudeOfRatio (num den : Nat) : Nat :=
  let num := num * Nat.pow 2 1074
  let scale := Nat.log2 (num / den) - 52
  min infinite (scale * Nat.pow 2 52 + nearestEven num (den * Nat.pow 2 scale))

def magnitudeOfDecimal (d : Decimal) : Nat :=
  magnitudeOfRatio (d.coefficient * Nat.pow 10 d.exponent.toNat) (Nat.pow 10 (-d.exponent).toNat)

def ofDecimal (d : Decimal) : Binary64 := ofMagnitude (magnitudeOfDecimal d)

end Binary64

namespace Decimal

def stripZeros (d : Decimal) : Decimal :=
  if h : d.coefficient ≠ 0 ∧ d.coefficient % 10 = 0 then
    stripZeros ⟨d.coefficient / 10, d.exponent + 1⟩
  else d
termination_by d.coefficient
decreasing_by exact Nat.div_lt_self (Nat.pos_of_ne_zero h.1) (by decide)

def digits (d : Decimal) : List Char := Nat.toDigits 10 d.coefficient

end Decimal

namespace Binary64

def exactDecimal (n : Nat) : Decimal := ⟨units n * Nat.pow 5 1074, -1074⟩

/--
The better decimal with `count` digits that reads back to the magnitude `n`, whose value is
`exact` with `length` digits: the nearer of the two neighbours of the value on that grid, and the
greater of two that are equally near.
-/
def readsBackWith (n : Nat) (exact : Decimal) (length count : Nat) : Option Decimal :=
  let grid := Nat.pow 10 (length - count)
  let below : Decimal := ⟨exact.coefficient / grid, exact.exponent + (length - count : Nat)⟩
  let above : Decimal := ⟨below.coefficient + 1, below.exponent⟩
  let (nearer, farther) :=
    if 2 * (exact.coefficient % grid) < grid then (below, above) else (above, below)
  [nearer, farther].find? fun d => decide (magnitudeOfDecimal d = n)

/-- The shortest decimal that reads back to a finite magnitude. -/
def shortest (n : Nat) : Decimal :=
  if n = 0 then ⟨0, 0⟩
  else
    let exact := exactDecimal n
    let candidate := (List.range' 1 17).findSome? (readsBackWith n exact exact.digits.length)
    (candidate.getD exact).stripZeros

end Binary64

/-- How the digits of a decimal are arranged. -/
structure Layout where
  /-- The exponents of the leading digit that are written without an exponent. -/
  isPositional : Int → Bool
  /-- Whether a whole number that is written without an exponent gets the fraction `.0`. -/
  keepsFraction : Bool

namespace Layout

def plain : Layout := ⟨fun _ => true, false⟩

/-- An exponent where the leading digit lies below `10 ^ -4` or at `10 ^ 16` and above. -/
def compact : Layout := ⟨fun leading => decide (-5 < leading ∧ leading < 16), true⟩

def fraction (layout : Layout) (digits : List Char) : List Char :=
  if digits ≠ [] then '.' :: digits
  else if layout.keepsFraction then ['.', '0'] else []

/-- Digits whose first one has the given exponent, with the point among them or beside them. -/
def positional (layout : Layout) (digits : List Char) (leading : Int) : List Char :=
  if leading < 0 then
    '0' :: layout.fraction (List.replicate (-leading - 1).toNat '0' ++ digits)
  else
    let whole := leading.toNat + 1
    (digits.take whole).rightpad whole '0' ++ layout.fraction (digits.drop whole)

def scientific (digits : List Char) (leading : Int) : List Char :=
  digits.take 1 ++ plain.fraction (digits.drop 1) ++ 'e' :: (toString leading).toList

def write (layout : Layout) (d : Decimal) : String :=
  let digits := d.digits
  let leading := d.exponent + digits.length - 1
  String.ofList <|
    if layout.isPositional leading then layout.positional digits leading
    else scientific digits leading

end Layout

namespace Binary64

def writeFinite (layout : Layout) (x : Binary64) : String :=
  (if x.isNegative then "-" else "") ++ layout.write (shortest x.magnitude)

/-- A number as messages and expressions show it. -/
def toText (x : Binary64) : String :=
  if x.isNaN then "NaN"
  else if x.isFinite then x.writeFinite .plain
  else if x.isNegative then "-inf" else "inf"

end Binary64

end Formula
