import Formula.Proofs.Binary64.Nearest
import Formula.Proofs.Token.Segmentation
import Formula.Ssa.Basic

/-! # Constants as literals

A literal has digits on both sides of a point and possibly an exponent; its characters determine it.
A compact text may lack the fraction where it has an exponent, and inserting one there makes the
text a literal for the same number. Every finite number is written as such a literal behind its
sign, and the literal rounds to the number. Every other number is written as the digits of its bits,
so no two constants are written alike.
-/

namespace Formula

@[ext]
structure Digits where
  chars : List Char
  nonempty : chars ≠ []
  isDigit : ∀ c ∈ chars, c.isDigit = true

def signChars (negative : Bool) : List Char := if negative then ['-'] else []

theorem eq_minus_of_mem_signChars {negative : Bool} {c : Char} (h : c ∈ signChars negative) :
    c = '-' := by
  cases negative with
  | false => cases h
  | true => exact List.mem_singleton.mp h

theorem signChars_injective {m n : Bool} (same : signChars m = signChars n) : m = n := by
  cases m <;> cases n <;> simp_all [signChars]

@[ext]
structure IntegerLiteral where
  negative : Bool
  digits : Digits

/-- A decimal with a point, and with an exponent or without one. -/
@[ext]
structure DecimalLiteral where
  whole : Digits
  fraction : Digits
  exponent : Option IntegerLiteral

/-- A decimal with a point and no exponent, or with an exponent and a point or none before it. -/
inductive CompactLiteral where
  | positional (whole fraction : Digits)
  | scientific (whole : Digits) (fraction : Option Digits) (exponent : IntegerLiteral)

namespace Digits

variable {a b : Digits} {r s : List Char}

def zero : Digits := ⟨['0'], by simp, List.all_eq_true.mp rfl⟩

def ofNat (n : Nat) : Digits where
  chars := Nat.toDigits 10 n
  nonempty := Nat.toDigits_ne_nil
  isDigit := fun _ => Nat.isDigit_of_mem_toDigits (by decide) (by decide)

theorem stops_minus (digits : Digits) (rest : List Char) :
    Token.Stops (· == '-') (digits.chars ++ rest) := by
  obtain ⟨c, more, same⟩ := List.exists_cons_of_ne_nil digits.nonempty
  have digit := digits.isDigit c (by simp [same])
  rw [same]
  apply Token.stops_cons
  rw [beq_eq_false_iff_ne]
  rintro rfl
  cases digit

theorem append_inj (hr : Token.Stops Char.isDigit r) (hs : Token.Stops Char.isDigit s)
    (same : a.chars ++ r = b.chars ++ s) : a = b ∧ r = s := by
  obtain ⟨chars, rest⟩ := hr.append_inj hs a.isDigit b.isDigit same
  exact ⟨Digits.ext chars, rest⟩

theorem signed_append_inj {m n : Bool}
    (same : signChars m ++ (a.chars ++ r) = signChars n ++ (b.chars ++ s)) :
    m = n ∧ a.chars ++ r = b.chars ++ s := by
  have all (negative : Bool) : ∀ c ∈ signChars negative, (c == '-') = true := fun c mem =>
    beq_iff_eq.mpr (eq_minus_of_mem_signChars mem)
  obtain ⟨signs, behind⟩ := (stops_minus a r).append_inj (stops_minus b s) (all m) (all n) same
  exact ⟨signChars_injective signs, behind⟩

end Digits

namespace IntegerLiteral

def chars (literal : IntegerLiteral) : List Char :=
  signChars literal.negative ++ literal.digits.chars

def value (literal : IntegerLiteral) : Int :=
  let n : Int := Nat.ofDigitChars 10 literal.digits.chars 0
  if literal.negative then -n else n

def ofInt (n : Int) : IntegerLiteral := ⟨decide (n < 0), .ofNat n.natAbs⟩

theorem chars_ofInt (n : Int) : (ofInt n).chars = (toString n).toList := by
  rw [Int.toString_eq_repr, Int.repr_eq_if]
  split
  next h =>
    have abs : n.natAbs = n.toNat := by omega
    simp [chars, ofInt, signChars, Digits.ofNat, Int.not_lt.mpr h, abs]
  next h =>
    have abs : n.natAbs = (-n).toNat := by omega
    simp [chars, ofInt, signChars, Digits.ofNat, Int.not_le.mp h, abs]

theorem value_ofInt (n : Int) : (ofInt n).value = n := by
  simp only [value, ofInt, Digits.ofNat, Nat.ofDigitChars_ten_toDigits, decide_eq_true_eq]
  split <;> omega

theorem chars_injective {a b : IntegerLiteral} (same : a.chars = b.chars) : a = b := by
  have ends := Token.stops_nil Char.isDigit
  have whole : signChars a.negative ++ (a.digits.chars ++ []) =
      signChars b.negative ++ (b.digits.chars ++ []) := by simpa [chars] using same
  obtain ⟨negative, digits⟩ := Digits.signed_append_inj whole
  obtain ⟨digits, -⟩ := Digits.append_inj ends ends digits
  exact IntegerLiteral.ext negative digits

end IntegerLiteral

namespace DecimalLiteral

def exponentChars : Option IntegerLiteral → List Char
  | none => []
  | some exponent => 'e' :: exponent.chars

def chars (literal : DecimalLiteral) : List Char :=
  literal.whole.chars ++ '.' :: (literal.fraction.chars ++ exponentChars literal.exponent)

def decimal (literal : DecimalLiteral) : Decimal :=
  let mantissa := Numeral.decimal literal.whole.chars literal.fraction.chars
  ⟨mantissa.coefficient, mantissa.exponent + (literal.exponent.map (·.value)).getD 0⟩

theorem stops_exponentChars (exponent : Option IntegerLiteral) :
    Token.Stops Char.isDigit (exponentChars exponent) := by
  cases exponent with
  | none => exact Token.stops_nil _
  | some exponent => exact Token.stops_cons (by decide) _

theorem exponentChars_injective {m n : Option IntegerLiteral}
    (same : exponentChars m = exponentChars n) : m = n := by
  cases m <;> cases n
  · rfl
  · cases same
  · cases same
  · exact congrArg some (IntegerLiteral.chars_injective (List.cons.inj same).2)

theorem signed_chars_injective {m n : Bool} {a b : DecimalLiteral}
    (same : signChars m ++ a.chars = signChars n ++ b.chars) : m = n ∧ a = b := by
  have point (rest : List Char) : Token.Stops Char.isDigit ('.' :: rest) :=
    Token.stops_cons (by decide) rest
  obtain ⟨negative, same⟩ := Digits.signed_append_inj same
  obtain ⟨whole, same⟩ := Digits.append_inj (point _) (point _) same
  obtain ⟨fraction, same⟩ := Digits.append_inj (stops_exponentChars _) (stops_exponentChars _)
    (List.cons.inj same).2
  exact ⟨negative, DecimalLiteral.ext whole fraction (exponentChars_injective same)⟩

theorem mem_signed_chars {negative : Bool} {literal : DecimalLiteral} {c : Char}
    (h : c ∈ signChars negative ++ literal.chars) : c.isDigit = true ∨ c ∈ ['-', '.', 'e'] := by
  have sign (negative : Bool) (mem : c ∈ signChars negative) : c = '-' :=
    eq_minus_of_mem_signChars mem
  have whole := literal.whole.isDigit c
  have fraction := literal.fraction.isDigit c
  cases exponent : literal.exponent with
  | none =>
    simp only [chars, exponent, exponentChars, List.mem_append, List.mem_cons] at h
    grind
  | some integer =>
    have digits := integer.digits.isDigit c
    simp only [chars, exponent, exponentChars, IntegerLiteral.chars, List.mem_append,
      List.mem_cons] at h
    grind

end DecimalLiteral

namespace CompactLiteral

def fractionChars : Option Digits → List Char
  | none => []
  | some fraction => '.' :: fraction.chars

def chars : CompactLiteral → List Char
  | positional whole fraction => whole.chars ++ fractionChars (some fraction)
  | scientific whole fraction exponent =>
    whole.chars ++ (fractionChars fraction ++ 'e' :: exponent.chars)

def decimal : CompactLiteral → Decimal
  | positional whole fraction => Numeral.decimal whole.chars fraction.chars
  | scientific whole fraction exponent =>
    let mantissa := Numeral.decimal whole.chars ((fraction.map (·.chars)).getD [])
    ⟨mantissa.coefficient, mantissa.exponent + exponent.value⟩

/-- The literal with the fraction 0 where there was none. -/
def full : CompactLiteral → DecimalLiteral
  | positional whole fraction => ⟨whole, fraction, none⟩
  | scientific whole fraction exponent => ⟨whole, fraction.getD .zero, some exponent⟩

theorem magnitude_full (literal : CompactLiteral) :
    Binary64.magnitudeOfDecimal literal.full.decimal =
      Binary64.magnitudeOfDecimal literal.decimal := by
  cases literal with
  | positional whole fraction => simp [full, DecimalLiteral.decimal, decimal]
  | scientific whole fraction exponent =>
    cases fraction with
    | some fraction => rfl
    | none =>
      have shifted : Nat.ofDigitChars 10 (whole.chars ++ ['0']) 0 =
          Nat.ofDigitChars 10 whole.chars 0 * Nat.pow 10 1 := by
        rw [Nat.ofDigitChars_append, Nat.mul_comm]
        rfl
      have zeros := Binary64.magnitudeOfDecimal_zeros (Nat.ofDigitChars 10 whole.chars 0) 1
        (-1 + exponent.value)
      have back : -1 + exponent.value + (1 : Nat) = exponent.value := by omega
      rw [← shifted, back] at zeros
      simpa [full, DecimalLiteral.decimal, decimal, Numeral.decimal, Digits.zero] using zeros

/-- The literal stands for digits whose first one has the given exponent. -/
def StandsFor (literal : CompactLiteral) (digits : List Char) (leading : Int) : Prop :=
  ∃ zeros : Nat, literal.decimal =
    ⟨Nat.ofDigitChars 10 digits 0 * Nat.pow 10 zeros, leading - digits.length + 1 - zeros⟩

theorem StandsFor.magnitude_eq {literal : CompactLiteral} {d : Decimal}
    (h : literal.StandsFor d.digits (d.exponent + d.digits.length - 1)) :
    Binary64.magnitudeOfDecimal literal.decimal = Binary64.magnitudeOfDecimal d := by
  obtain ⟨zeros, same⟩ := h
  have coefficient : Nat.ofDigitChars 10 d.digits 0 = d.coefficient :=
    Nat.ofDigitChars_toDigits (by decide) (by decide)
  have exponent : d.exponent + d.digits.length - 1 - d.digits.length + 1 - zeros + zeros =
    d.exponent := by omega
  rw [same, coefficient, Binary64.magnitudeOfDecimal_zeros, exponent]

section

variable {negative : Bool} {whole : Digits} {fraction : Option Digits} {c : Char}

theorem mem_mantissa
    (h : c ∈ signChars negative ++ (whole.chars ++ fractionChars fraction)) :
    c.isDigit = true ∨ c = '-' ∨ (c = '.' ∧ fraction ≠ none) := by
  have sign (mem : c ∈ signChars negative) : c = '-' := eq_minus_of_mem_signChars mem
  have digits := whole.isDigit c
  cases fraction with
  | none =>
    simp only [fractionChars, List.mem_append, List.not_mem_nil] at h
    grind
  | some fraction =>
    have behind := fraction.isDigit c
    simp only [fractionChars, List.mem_append, List.mem_cons] at h
    grind

theorem ne_mark_of_mem_mantissa
    (h : c ∈ signChars negative ++ (whole.chars ++ fractionChars fraction)) : c ≠ 'e' := by
  rintro rfl
  rcases mem_mantissa h with digit | minus | ⟨point, -⟩
  · cases digit
  · cases minus
  · cases point

theorem point_mem_mantissa_iff :
    '.' ∈ signChars negative ++ (whole.chars ++ fractionChars fraction) ↔ fraction ≠ none := by
  constructor
  · intro mem
    rcases mem_mantissa mem with digit | minus | ⟨-, some⟩
    · cases digit
    · cases minus
    · exact some
  · intro some
    obtain ⟨fraction, rfl⟩ := Option.ne_none_iff_exists'.mp some
    simp [fractionChars]

theorem findIdx?_mark {front : List Char} (h : ∀ c ∈ front, c ≠ 'e') (rest : List Char) :
    (front ++ 'e' :: rest).findIdx? (· == 'e') = some front.length := by
  have none : front.findIdx? (· == 'e') = none := by simpa [List.findIdx?_eq_none_iff] using h
  simp [List.findIdx?_append, none, List.findIdx?_cons]

end

/-- A compact text becomes a literal: a missing fraction comes between its digits and the mark of
its exponent, and nothing else is inserted. -/
theorem insertFraction_chars (negative : Bool) (literal : CompactLiteral) :
    Binary64.insertFraction (signChars negative ++ literal.chars) =
      signChars negative ++ literal.full.chars := by
  cases literal with
  | positional whole fraction =>
    have unmarked : (signChars negative ++ (whole.chars ++ fractionChars (some fraction))).findIdx?
        (· == 'e') = none := by
      rw [List.findIdx?_eq_none_iff]
      intro c mem
      simpa using ne_mark_of_mem_mantissa mem
    rw [chars, Binary64.insertFraction, unmarked]
    simp [full, DecimalLiteral.chars, DecimalLiteral.exponentChars, fractionChars]
  | scientific whole fraction exponent =>
    have split : signChars negative ++ chars (scientific whole fraction exponent) =
        signChars negative ++ (whole.chars ++ fractionChars fraction) ++ 'e' :: exponent.chars := by
      simp [chars]
    rw [Binary64.insertFraction, split, findIdx?_mark fun c mem => ne_mark_of_mem_mantissa mem]
    simp only [List.take_left, List.drop_left, point_mem_mantissa_iff]
    cases fraction with
    | none => simp [full, DecimalLiteral.chars, DecimalLiteral.exponentChars, fractionChars,
        Digits.zero]
    | some fraction =>
      simp [full, DecimalLiteral.chars, DecimalLiteral.exponentChars, fractionChars]

end CompactLiteral

namespace Layout

open CompactLiteral

variable {digits : List Char} {leading : Int}

/-- Behind the point of a number that is written without an exponent there is at least one digit. -/
def fractionDigits (digits : List Char) (h : ∀ c ∈ digits, c.isDigit = true) : Digits where
  chars := if digits = [] then ['0'] else digits
  nonempty := by split <;> simp_all
  isDigit := by
    split
    · exact List.all_eq_true.mp rfl
    · exact h

theorem fraction_compact (h : ∀ c ∈ digits, c.isDigit = true) :
    compact.fraction digits = '.' :: (fractionDigits digits h).chars := by
  unfold fraction fractionDigits
  split <;> simp_all [compact]

theorem ofDigitChars_append_zeros (digits : List Char) (n : Nat) :
    Nat.ofDigitChars 10 (digits ++ List.replicate n '0') 0 =
      Nat.ofDigitChars 10 digits 0 * Nat.pow 10 n := by
  rw [Nat.ofDigitChars_append, Nat.ofDigitChars_replicate_zero, Nat.mul_comm]
  rfl

theorem exists_literal_positional (nonempty : digits ≠ []) (h : ∀ c ∈ digits, c.isDigit = true)
    (leading : Int) : ∃ literal : CompactLiteral,
      literal.chars = compact.positional digits leading ∧ literal.StandsFor digits leading := by
  rcases Int.lt_or_le leading 0 with small | large
  · obtain ⟨k, hk⟩ : ∃ k : Nat, -leading - 1 = k := ⟨(-leading - 1).toNat, by omega⟩
    have padded := (Numeral.isDigit_padded (n := k) h).1
    let fraction : Digits := ⟨List.replicate k '0' ++ digits, by simp [nonempty], padded⟩
    refine ⟨.positional .zero fraction, ?_, 0, ?_⟩
    · simp [positional, small, hk, fraction_compact padded, fractionDigits, nonempty, chars,
        fractionChars, Digits.zero, fraction]
    · simp [decimal, Numeral.decimal, Digits.zero, fraction, Nat.ofDigitChars_cons,
        Nat.ofDigitChars_append, Nat.ofDigitChars_replicate_zero]
      omega
  · obtain ⟨k, hk⟩ : ∃ k : Nat, leading.toNat = k := ⟨_, rfl⟩
    have front : ∀ c ∈ digits.take (k + 1), c.isDigit = true :=
      fun c hc => h c (List.mem_of_mem_take hc)
    have behind : ∀ c ∈ digits.drop (k + 1), c.isDigit = true :=
      fun c hc => h c (List.mem_of_mem_drop hc)
    let whole : Digits := ⟨(digits.take (k + 1)).rightpad (k + 1) '0',
      by simp [List.rightpad, nonempty], (Numeral.isDigit_padded front).2⟩
    refine ⟨.positional whole (fractionDigits _ behind), ?_, ?_⟩
    · simp [positional, Int.not_lt.mpr large, hk, fraction_compact behind, chars, fractionChars,
        whole]
    · rcases Nat.lt_or_ge (k + 1) digits.length with fractional | integral
      · refine ⟨0, ?_⟩
        have more : digits.drop (k + 1) ≠ [] := by simpa using fractional
        have full : k + 1 - min (k + 1) digits.length = 0 := by omega
        simp [decimal, Numeral.decimal, whole, fractionDigits, more, List.rightpad, full]
        omega
      · refine ⟨k + 1 - digits.length + 1, ?_⟩
        have none : digits.drop (k + 1) = [] := List.drop_eq_nil_of_le integral
        have shifted := ofDigitChars_append_zeros digits (k + 1 - digits.length + 1)
        rw [List.replicate_succ'] at shifted
        simp [decimal, Numeral.decimal, whole, fractionDigits, none, List.rightpad,
          List.take_of_length_le integral, shifted]
        omega

theorem exists_literal_scientific (nonempty : digits ≠ []) (h : ∀ c ∈ digits, c.isDigit = true)
    (leading : Int) : ∃ literal : CompactLiteral,
      literal.chars = scientific digits leading ∧ literal.StandsFor digits leading := by
  obtain ⟨c, more, rfl⟩ := List.exists_cons_of_ne_nil nonempty
  let whole : Digits := ⟨[c], by simp, by simpa using h c List.mem_cons_self⟩
  by_cases alone : more = []
  · refine ⟨.scientific whole none (.ofInt leading), ?_, 0, ?_⟩
    · simp [scientific, fraction, plain, alone, chars, fractionChars, whole,
        IntegerLiteral.chars_ofInt]
    · simp [decimal, Numeral.decimal, whole, alone, IntegerLiteral.value_ofInt]
  · have behind : ∀ d ∈ more, d.isDigit = true := fun d hd => h d (List.mem_cons_of_mem c hd)
    refine ⟨.scientific whole (some ⟨more, alone, behind⟩) (.ofInt leading), ?_, 0, ?_⟩
    · simp [scientific, fraction, alone, chars, fractionChars, whole, IntegerLiteral.chars_ofInt]
    · simp [decimal, Numeral.decimal, whole, IntegerLiteral.value_ofInt]
      omega

theorem exists_literal_write (d : Decimal) : ∃ literal : CompactLiteral,
    (compact.write d).toList = literal.chars ∧
      Binary64.magnitudeOfDecimal literal.decimal = Binary64.magnitudeOfDecimal d := by
  have nonempty : d.digits ≠ [] := Nat.toDigits_ne_nil
  have all : ∀ c ∈ d.digits, c.isDigit = true := fun _ => Binary64.isDigit_of_mem_digits
  let leading := d.exponent + d.digits.length - 1
  by_cases positional : compact.isPositional leading = true
  · obtain ⟨literal, same, stands⟩ := exists_literal_positional nonempty all leading
    refine ⟨literal, ?_, stands.magnitude_eq⟩
    rw [same, write, if_pos positional, String.toList_ofList]
  · obtain ⟨literal, same, stands⟩ := exists_literal_scientific nonempty all leading
    refine ⟨literal, ?_, stands.magnitude_eq⟩
    rw [same, write, if_neg positional, String.toList_ofList]

end Layout

namespace Binary64

variable {x y : Binary64}

theorem eq_of_magnitude_eq (negative : x.isNegative = y.isNegative)
    (magnitude : x.magnitude = y.magnitude) : x = y := by
  have bounded := x.bits.toNat_lt
  have bounded' := y.bits.toNat_lt
  have bits : x.bits.toNat = y.bits.toNat := by
    simp only [isNegative, Binary64.magnitude, Nat.pow_eq, decide_eq_decide] at negative magnitude
    omega
  cases x
  cases y
  exact congrArg mk (UInt64.toNat_inj.mp bits)

/-- A finite number is written compactly behind its sign, and what is written rounds to it. -/
theorem exists_literal_writeFinite (finite : x.isFinite = true) : ∃ shown : CompactLiteral,
    (x.writeFinite .compact).toList = signChars x.isNegative ++ shown.chars ∧
      magnitudeOfDecimal shown.decimal = x.magnitude := by
  have small : x.magnitude < infinite := by simpa [isFinite] using finite
  obtain ⟨shown, same, rounds⟩ := Layout.exists_literal_write (shortest x.magnitude)
  refine ⟨shown, ?_, rounds.trans (magnitudeOfDecimal_shortest small)⟩
  rw [writeFinite, String.toList_append, same]
  cases x.isNegative <;> rfl

theorem toList_toConstant (finite : x.isFinite = true) :
    x.toConstant.toList = insertFraction (x.writeFinite .compact).toList := by
  rw [toConstant, if_pos finite, String.toList_ofList]

theorem exists_literal_toConstant (finite : x.isFinite = true) : ∃ literal : DecimalLiteral,
    x.toConstant.toList = signChars x.isNegative ++ literal.chars ∧
      magnitudeOfDecimal literal.decimal = x.magnitude := by
  obtain ⟨shown, same, rounds⟩ := exists_literal_writeFinite finite
  refine ⟨shown.full, ?_, shown.magnitude_full.trans rounds⟩
  rw [toList_toConstant finite, same, shown.insertFraction_chars]

def hexadecimalDigits : List Char := "0123456789ABCDEF".toList

def ofHexadecimal (digits : List Char) : Nat :=
  digits.foldl (fun n digit => 16 * n + hexadecimalDigits.idxOf digit) 0

theorem hexadecimal_digitChar : ∀ n < 16, (Nat.digitChar n).toUpper ∈ hexadecimalDigits ∧
    hexadecimalDigits.idxOf (Nat.digitChar n).toUpper = n := by
  decide

theorem mem_hexadecimalDigits (n : Nat) :
    ∀ c ∈ (Nat.toDigits 16 n).map Char.toUpper, c ∈ hexadecimalDigits := by
  induction n using Nat.strongRecOn with
  | ind n ih =>
    rw [Nat.toDigits_eq_if (by decide)]
    split
    next small => simpa using (hexadecimal_digitChar n small).1
    next large =>
      have last := (hexadecimal_digitChar (n % 16) (Nat.mod_lt n (by decide))).1
      rw [List.map_append, List.forall_mem_append]
      exact ⟨ih (n / 16) (by omega), by simpa using last⟩

theorem ofHexadecimal_toDigits (n : Nat) :
    ofHexadecimal ((Nat.toDigits 16 n).map Char.toUpper) = n := by
  induction n using Nat.strongRecOn with
  | ind n ih =>
    rw [Nat.toDigits_eq_if (by decide)]
    split
    next small => simp [ofHexadecimal, (hexadecimal_digitChar n small).2]
    next large =>
      have last := (hexadecimal_digitChar (n % 16) (Nat.mod_lt n (by decide))).2
      rw [List.map_append, ofHexadecimal, List.foldl_append, ← ofHexadecimal,
        ih (n / 16) (by omega)]
      simp only [List.map_cons, List.map_nil, List.foldl_cons, List.foldl_nil, last]
      omega

theorem ofHexadecimal_zeros (k : Nat) (digits : List Char) :
    ofHexadecimal (List.replicate k '0' ++ digits) = ofHexadecimal digits := by
  induction k with
  | zero => rfl
  | succ k ih => exact ih

theorem exists_digits_toConstant (special : x.isFinite = false) : ∃ digits : List Char,
    x.toConstant.toList = '0' :: 'x' :: digits ∧ digits.length = 16 ∧
      (∀ c ∈ digits, c ∈ hexadecimalDigits) ∧ ofHexadecimal digits = x.bits.toNat := by
  have bounded : (Nat.toDigits 16 x.bits.toNat).length ≤ 16 :=
    (Nat.length_toDigits_le_iff (by decide) (by decide)).mpr x.bits.toNat_lt
  have padded : ((Nat.toDigits 16 x.bits.toNat).leftpad 16 '0').map Char.toUpper =
      List.replicate (16 - (Nat.toDigits 16 x.bits.toNat).length) '0' ++
        (Nat.toDigits 16 x.bits.toNat).map Char.toUpper := by
    rw [List.leftpad, List.map_append, List.map_replicate]
    rfl
  refine ⟨((Nat.toDigits 16 x.bits.toNat).leftpad 16 '0').map Char.toUpper, ?_, ?_, ?_, ?_⟩
  · simp [toConstant, special, hexadecimal]
  · rw [List.length_map, List.length_leftpad, Nat.max_eq_left bounded]
  · rw [padded, List.forall_mem_append]
    refine ⟨fun c hc => ?_, mem_hexadecimalDigits _⟩
    rw [List.eq_of_mem_replicate hc]
    decide
  · rw [padded, ofHexadecimal_zeros, ofHexadecimal_toDigits]

/-- No separator of the text is in a constant. -/
theorem mem_toConstant {c : Char} (h : c ∈ x.toConstant.toList) :
    c.isAlphanum = true ∨ c = '-' ∨ c = '.' := by
  cases finite : x.isFinite with
  | true =>
    obtain ⟨literal, same, -⟩ := exists_literal_toConstant finite
    rw [same] at h
    rcases DecimalLiteral.mem_signed_chars h with digit | mark
    · exact .inl (by simp [Char.isAlphanum, digit])
    · simp only [List.mem_cons, List.not_mem_nil, or_false] at mark
      rcases mark with rfl | rfl | rfl
      · exact .inr (.inl rfl)
      · exact .inr (.inr rfl)
      · exact .inl (by decide)
  | false =>
    have hexadecimal : ∀ d ∈ hexadecimalDigits, d.isAlphanum = true :=
      List.all_eq_true.mp (by decide)
    obtain ⟨digits, same, -, all, -⟩ := exists_digits_toConstant finite
    rw [same] at h
    rcases List.mem_cons.mp h with rfl | h
    · exact .inl (by decide)
    rcases List.mem_cons.mp h with rfl | h
    · exact .inl (by decide)
    · exact .inl (hexadecimal c (all c h))

theorem toConstant_ne (finite : x.isFinite = true) (special : y.isFinite = false) :
    x.toConstant ≠ y.toConstant := by
  intro same
  obtain ⟨literal, written, -⟩ := exists_literal_toConstant finite
  obtain ⟨digits, written', -⟩ := exists_digits_toConstant special
  have mark : 'x' ∈ signChars x.isNegative ++ literal.chars := by
    rw [← written, same, written']
    simp
  rcases DecimalLiteral.mem_signed_chars mark with digit | mark
  · cases digit
  · revert mark
    decide

theorem toConstant_inj : x.toConstant = y.toConstant ↔ x = y := by
  constructor
  · intro same
    cases finite : x.isFinite <;> cases finite' : y.isFinite
    · obtain ⟨digits, written, -, -, bits⟩ := exists_digits_toConstant finite
      obtain ⟨digits', written', -, -, bits'⟩ := exists_digits_toConstant finite'
      rw [same, written'] at written
      obtain rfl : digits' = digits := (List.cons.inj (List.cons.inj written).2).2
      cases x
      cases y
      exact congrArg mk (UInt64.toNat_inj.mp (bits.symm.trans bits'))
    · exact absurd same.symm (toConstant_ne finite' finite)
    · exact absurd same (toConstant_ne finite finite')
    · obtain ⟨literal, written, rounds⟩ := exists_literal_toConstant finite
      obtain ⟨literal', written', rounds'⟩ := exists_literal_toConstant finite'
      rw [same, written'] at written
      obtain ⟨negative, rfl⟩ := DecimalLiteral.signed_chars_injective written
      exact eq_of_magnitude_eq negative.symm (rounds.symm.trans rounds')
  · rintro rfl
    rfl

end Binary64

open Binary64

/--
Into any compact text behind a sign a missing fraction is inserted before the exponent: what comes
out is a literal, with a digit on both sides of its point, that rounds as the text did. The compact
text of a finite number has its sign and rounds to its magnitude, and the constant is that text
with the insertion: a literal to whose value the number, its sign aside, is the nearest one, and the
only literal with these characters. Every other number is written as the 16 hexadecimal digits of
its bits. Numbers with different bits are written differently.
-/
theorem Ssa.Value.toText_constant (x : Binary64) :
    (∀ negative (shown : CompactLiteral),
      insertFraction (signChars negative ++ shown.chars) = signChars negative ++ shown.full.chars ∧
      magnitudeOfDecimal shown.full.decimal = magnitudeOfDecimal shown.decimal) ∧
    ((x.isFinite = true ∧ ∃ (shown : CompactLiteral) (literal : DecimalLiteral),
        (x.writeFinite .compact).toList = signChars x.isNegative ++ shown.chars ∧
        magnitudeOfDecimal shown.decimal = x.magnitude ∧
        (constant x).toText.toList = insertFraction (signChars x.isNegative ++ shown.chars) ∧
        literal = shown.full ∧
        (constant x).toText.toList = signChars x.isNegative ++ literal.chars ∧
        magnitudeOfDecimal literal.decimal = x.magnitude ∧
        (ofMagnitude x.magnitude).IsNearest literal.decimal.value ∧
        ∀ negative other, signChars negative ++ DecimalLiteral.chars other =
          (constant x).toText.toList → negative = x.isNegative ∧ other = literal) ∨
      (x.isFinite = false ∧ ∃ digits : List Char,
        (constant x).toText.toList = '0' :: 'x' :: digits ∧ digits.length = 16 ∧
        (∀ c ∈ digits, c ∈ hexadecimalDigits) ∧ ofHexadecimal digits = x.bits.toNat)) ∧
    ∀ y : Binary64, (constant x).toText = (constant y).toText ↔ x = y := by
  refine ⟨fun negative shown => ⟨shown.insertFraction_chars negative, shown.magnitude_full⟩, ?_,
    fun y => toConstant_inj⟩
  cases finite : x.isFinite with
  | true =>
    obtain ⟨shown, same, rounds⟩ := exists_literal_writeFinite finite
    have inserted : x.toConstant.toList =
        insertFraction (signChars x.isNegative ++ shown.chars) := by
      rw [toList_toConstant finite, same]
    have written := inserted.trans (shown.insertFraction_chars x.isNegative)
    have read := shown.magnitude_full.trans rounds
    refine .inl ⟨rfl, shown, shown.full, same, rounds, inserted, rfl, written, read, ?_,
      fun negative other alike => ?_⟩
    · rw [← read]
      exact isNearest_ofDecimal shown.full.decimal
    · exact DecimalLiteral.signed_chars_injective (alike.trans written)
  | false => exact .inr ⟨rfl, exists_digits_toConstant finite⟩

/-- `10 ^ 20` has no fraction of its own, and gets one before its exponent. -/
example : (⟨0x4415AF1D78B58C40⟩ : Binary64).writeFinite .compact = "1e20" ∧
    (Ssa.Value.constant ⟨0x4415AF1D78B58C40⟩).toText = "1.0e20" := by decide +kernel

end Formula
