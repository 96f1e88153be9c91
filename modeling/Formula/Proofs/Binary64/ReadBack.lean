import Formula.Binary64.Basic
import Formula.Proofs.Token.Lexeme

/-! # Written numbers read back

Rounding depends on a ratio alone, so a decimal keeps its magnitude when zeros move from
its coefficient into its exponent. All the digits of a finite number therefore read back
to it, and so do the fewest ones and their text without an exponent.
-/

namespace Formula

namespace Binary64

theorem nearestEven_mul {k : Nat} (h : 0 < k) (num den : Nat) :
    nearestEven (k * num) (k * den) = nearestEven num den := by
  have twice : 2 * (k * num % (k * den)) = k * (2 * (num % den)) := by
    rw [Nat.mul_mod_mul_left, Nat.mul_left_comm]
  simp only [nearestEven, Nat.mul_div_mul_left _ _ h, twice, Nat.mul_lt_mul_left h,
    Nat.mul_left_cancel_iff h]

theorem nearestEven_mul_self (n : Nat) {den : Nat} (h : 0 < den) :
    nearestEven (n * den) den = n := by
  simp [nearestEven, Nat.mul_div_cancel _ h, h]

theorem magnitudeOfRatio_mul {k : Nat} (h : 0 < k) (num den : Nat) :
    magnitudeOfRatio (k * num) (k * den) = magnitudeOfRatio num den := by
  simp only [magnitudeOfRatio, Nat.mul_assoc, Nat.mul_div_mul_left _ _ h, nearestEven_mul h]

theorem magnitudeOfRatio_congr {num den num' den' : Nat} (h : 0 < den) (h' : 0 < den')
    (same : num * den' = num' * den) : magnitudeOfRatio num den = magnitudeOfRatio num' den' := by
  calc magnitudeOfRatio num den
    _ = magnitudeOfRatio (den' * num) (den' * den) := (magnitudeOfRatio_mul h' num den).symm
    _ = magnitudeOfRatio (den * num') (den * den') := by
      rw [Nat.mul_comm den' num, same, Nat.mul_comm num' den, Nat.mul_comm den' den]
    _ = magnitudeOfRatio num' den' := magnitudeOfRatio_mul h num' den'

theorem magnitudeOfDecimal_zeros (coefficient zeros : Nat) (exponent : Int) :
    magnitudeOfDecimal ⟨coefficient * Nat.pow 10 zeros, exponent⟩ =
      magnitudeOfDecimal ⟨coefficient, exponent + zeros⟩ := by
  apply magnitudeOfRatio_congr (Nat.pow_pos (by decide)) (Nat.pow_pos (by decide))
  simp only [Nat.pow_eq, Nat.mul_assoc, ← Nat.pow_add]
  congr 2
  omega

theorem scale_add_significand (n : Nat) : scale n * Nat.pow 2 52 + significand n = n := by
  simp only [scale, significand, Nat.pow_eq]
  split <;> omega

theorem significand_of_scale_pos {n : Nat} (h : 0 < scale n) : Nat.pow 2 52 ≤ significand n := by
  simp only [scale, significand, Nat.pow_eq] at *
  split <;> omega

theorem significand_lt (n : Nat) : significand n < Nat.pow 2 53 := by
  simp only [significand, Nat.pow_eq]
  split <;> omega

theorem log2_mul_two_pow {n : Nat} (h : 0 < n) (k : Nat) :
    Nat.log2 (n * Nat.pow 2 k) = Nat.log2 n + k := by
  have bounds := (Nat.log2_eq_iff (Nat.ne_of_gt h)).mp rfl
  have pos : 0 < n * Nat.pow 2 k := Nat.mul_pos h (Nat.two_pow_pos k)
  rw [Nat.pow_eq] at pos ⊢
  apply (Nat.log2_eq_iff (Nat.ne_of_gt pos)).mpr
  constructor
  · rw [Nat.pow_add]
    exact Nat.mul_le_mul_right _ bounds.1
  · rw [Nat.add_right_comm, Nat.pow_add]
    exact Nat.mul_lt_mul_of_pos_right bounds.2 (Nat.two_pow_pos k)

theorem log2_significand_lt (n : Nat) : Nat.log2 (significand n) < 53 := by
  by_cases zero : significand n = 0
  · simp [zero]
  · exact (Nat.log2_lt zero).mpr (significand_lt n)

theorem log2_units (n : Nat) : Nat.log2 (units n) - 52 = scale n := by
  have lt := log2_significand_lt n
  rcases Nat.eq_zero_or_pos (scale n) with unscaled | scaled
  · simp only [units, unscaled, Nat.pow_eq, Nat.pow_zero, Nat.mul_one]
    omega
  · have full := significand_of_scale_pos scaled
    have pos : 0 < significand n := Nat.lt_of_lt_of_le (Nat.two_pow_pos 52) full
    have ge : 52 ≤ Nat.log2 (significand n) := (Nat.le_log2 (Nat.ne_of_gt pos)).mpr full
    rw [units, log2_mul_two_pow pos]
    omega

-- The exponent of the unit stands as a variable, so that its powers are not computed.
theorem magnitudeOfRatio_units {n k : Nat} (h : n < infinite) (hk : k = 1074) :
    magnitudeOfRatio (units n) (Nat.pow 2 k) = n := by
  have unit : 0 < Nat.pow 2 k := Nat.two_pow_pos k
  have exact : nearestEven (units n) (Nat.pow 2 (scale n)) = significand n :=
    nearestEven_mul_self _ (Nat.two_pow_pos _)
  unfold magnitudeOfRatio
  simp only [← hk, Nat.mul_div_cancel _ unit, log2_units]
  rw [Nat.mul_comm (units n), nearestEven_mul unit, exact, scale_add_significand]
  exact Nat.min_eq_right (Nat.le_of_lt h)

theorem magnitudeOfDecimal_fives (n k : Nat) :
    magnitudeOfDecimal ⟨n * Nat.pow 5 k, -k⟩ = magnitudeOfRatio n (Nat.pow 2 k) := by
  have ten : 5 ^ k * 2 ^ k = 10 ^ k := (Nat.mul_pow 5 2 k).symm
  apply magnitudeOfRatio_congr (Nat.pow_pos (by decide)) (Nat.two_pow_pos k)
  simp [Nat.mul_assoc, ten]

theorem magnitudeOfDecimal_exactDecimal {n : Nat} (h : n < infinite) :
    magnitudeOfDecimal (exactDecimal n) = n := by
  obtain ⟨k, hk⟩ : ∃ k, k = 1074 := ⟨_, rfl⟩
  have unit : (-1074 : Int) = -k := by omega
  have digits : exactDecimal n = ⟨units n * Nat.pow 5 k, -k⟩ := by
    rw [exactDecimal, unit, ← hk]
  rw [digits, magnitudeOfDecimal_fives, magnitudeOfRatio_units h hk]

theorem magnitudeOfDecimal_stripZeros (d : Decimal) :
    magnitudeOfDecimal d.stripZeros = magnitudeOfDecimal d := by
  fun_induction Decimal.stripZeros d with
  | case1 d h ih =>
    rw [ih]
    have zeros := magnitudeOfDecimal_zeros (d.coefficient / 10) 1 d.exponent
    rw [Nat.pow_eq, Nat.pow_one, Nat.div_mul_cancel (Nat.dvd_of_mod_eq_zero h.2)] at zeros
    exact zeros.symm
  | case2 => rfl

theorem magnitudeOfDecimal_of_readsBackWith {n length count : Nat} {exact d : Decimal}
    (h : readsBackWith n exact length count = some d) : magnitudeOfDecimal d = n := by
  simpa using List.find?_some h

/-- The shortest digits of a finite number read back to it. -/
theorem magnitudeOfDecimal_shortest {n : Nat} (h : n < infinite) :
    magnitudeOfDecimal (shortest n) = n := by
  unfold shortest
  split
  next zero =>
    subst zero
    decide +kernel
  next =>
    rw [magnitudeOfDecimal_stripZeros]
    cases found : (List.range' 1 17).findSome? (readsBackWith n (exactDecimal n)
        (exactDecimal n).digits.length) with
    | none => exact magnitudeOfDecimal_exactDecimal h
    | some d =>
      obtain ⟨count, -, reads⟩ := List.exists_of_findSome?_eq_some found
      exact magnitudeOfDecimal_of_readsBackWith reads

theorem magnitudeOfDecimal_le (d : Decimal) : magnitudeOfDecimal d ≤ infinite :=
  Nat.min_le_left _ _

theorem bits_ofMagnitude {n : Nat} (h : n ≤ infinite) : (ofMagnitude n).bits.toNat = n := by
  have small : infinite < 2 ^ 64 := by decide
  exact UInt64.toNat_ofNat_of_lt' (Nat.lt_of_le_of_lt h small)

theorem isNegative_ofMagnitude {n : Nat} (h : n ≤ infinite) :
    (ofMagnitude n).isNegative = false := by
  have small : infinite < Nat.pow 2 63 := by decide
  rw [isNegative, bits_ofMagnitude h]
  exact decide_eq_false (Nat.not_le.mpr (Nat.lt_of_le_of_lt h small))

theorem magnitude_ofMagnitude {n : Nat} (h : n ≤ infinite) : (ofMagnitude n).magnitude = n := by
  have small : infinite < Nat.pow 2 63 := by decide
  rw [magnitude, bits_ofMagnitude h, Nat.mod_eq_of_lt (Nat.lt_of_le_of_lt h small)]

theorem ofMagnitude_magnitude {x : Binary64} (h : x.isNegative = false) :
    ofMagnitude x.magnitude = x := by
  have small : x.bits.toNat < Nat.pow 2 63 := by simpa [isNegative] using h
  rw [magnitude, Nat.mod_eq_of_lt small, ofMagnitude, UInt64.ofNat_toNat]

end Binary64

namespace Layout

variable {digits : List Char} {leading : Int}

theorem positional_of_neg (nonempty : digits ≠ []) (h : leading < 0) :
    plain.positional digits leading =
      '0' :: '.' :: (List.replicate (-leading - 1).toNat '0' ++ digits) := by
  rw [positional, if_pos h, fraction, if_pos (by simp [nonempty])]

theorem positional_of_lt {whole : Nat} (h : leading + 1 = whole) (pos : 0 < whole)
    (lt : whole < digits.length) :
    plain.positional digits leading = digits.take whole ++ '.' :: digits.drop whole := by
  have whole_eq : leading.toNat + 1 = whole := by omega
  have behind : digits.drop whole ≠ [] := by simpa using lt
  have padding : whole - (digits.take whole).length = 0 := by simp; omega
  rw [positional, if_neg (by omega)]
  simp only [whole_eq, fraction, if_pos behind, List.rightpad, padding, List.replicate_zero,
    List.append_nil]

theorem positional_of_ge {whole : Nat} (h : leading + 1 = whole) (pos : 0 < whole)
    (ge : digits.length ≤ whole) :
    plain.positional digits leading = digits ++ List.replicate (whole - digits.length) '0' := by
  have whole_eq : leading.toNat + 1 = whole := by omega
  rw [positional, if_neg (by omega)]
  simp [whole_eq, fraction, plain, List.rightpad, List.take_of_length_le ge,
    List.drop_eq_nil_of_le ge]

theorem positional_ne_nil (nonempty : digits ≠ []) : plain.positional digits leading ≠ [] := by
  unfold positional
  split
  · simp
  · simp [List.rightpad, nonempty]

theorem mem_fraction {c : Char} (h : c ∈ plain.fraction digits) : c ∈ digits ∨ c = '.' := by
  unfold fraction at h
  grind [plain]

theorem mem_positional {c : Char} (h : c ∈ plain.positional digits leading) :
    c ∈ digits ∨ c = '0' ∨ c = '.' := by
  unfold positional at h
  split at h
  · have behind := @mem_fraction (List.replicate (-leading - 1).toNat '0' ++ digits) c
    grind
  · have behind := @mem_fraction (digits.drop (leading.toNat + 1)) c
    grind [List.rightpad, List.mem_of_mem_take, List.mem_of_mem_drop]

end Layout

namespace Numeral

variable {whole fraction : List Char}

theorem takeWhile_isDigit (h : ∀ c ∈ whole, c.isDigit = true) :
    whole.takeWhile Char.isDigit = whole ∧ whole.dropWhile Char.isDigit = [] := by
  have breaks := @Token.takeWhile_of_breaks Char.isDigit whole [] h nofun
  rwa [List.append_nil] at breaks

theorem takeWhile_isDigit_point (h : ∀ c ∈ whole, c.isDigit = true) (rest : List Char) :
    (whole ++ '.' :: rest).takeWhile Char.isDigit = whole ∧
      (whole ++ '.' :: rest).dropWhile Char.isDigit = '.' :: rest := by
  apply Token.takeWhile_of_breaks h
  rintro c ⟨⟩
  decide

theorem prefixDecimal?_whole (nonempty : whole ≠ []) (h : ∀ c ∈ whole, c.isDigit = true) :
    prefixDecimal? whole = some (decimal whole []) := by
  simp [prefixDecimal?, takeWhile_isDigit h, nonempty]

theorem prefixDecimal?_cut {rest : List Char} (h : ∀ c ∈ whole, c.isDigit = true)
    (h' : ∀ c ∈ fraction, c.isDigit = true) (stops : ∀ c, rest.head? = some c → c.isDigit = false) :
    prefixDecimal? (whole ++ '.' :: (fraction ++ rest)) =
      if whole = [] ∧ fraction = [] then none else some (decimal whole fraction) := by
  simp [prefixDecimal?, takeWhile_isDigit_point h, Token.takeWhile_of_breaks h' stops]

theorem prefixDecimal?_pointed (h : ∀ c ∈ whole, c.isDigit = true)
    (h' : ∀ c ∈ fraction, c.isDigit = true) :
    prefixDecimal? (whole ++ '.' :: fraction) =
      if whole = [] ∧ fraction = [] then none else some (decimal whole fraction) := by
  have cut := @prefixDecimal?_cut whole fraction [] h h' nofun
  rwa [List.append_nil] at cut

theorem prefixDecimal?_point (nonempty : whole ≠ []) (h : ∀ c ∈ whole, c.isDigit = true)
    (h' : ∀ c ∈ fraction, c.isDigit = true) :
    prefixDecimal? (whole ++ '.' :: fraction) = some (decimal whole fraction) := by
  rw [prefixDecimal?_pointed h h', if_neg fun empty => nonempty empty.1]

theorem isDigit_padded {digits : List Char} {n : Nat} (h : ∀ c ∈ digits, c.isDigit = true) :
    (∀ c ∈ List.replicate n '0' ++ digits, c.isDigit = true) ∧
      ∀ c ∈ digits ++ List.replicate n '0', c.isDigit = true := by
  have zeros : ∀ c ∈ List.replicate n '0', c.isDigit = true := by
    intro c hc
    rw [List.eq_of_mem_replicate hc]
    decide
  grind

theorem prefixDecimal?_positional {digits : List Char} (nonempty : digits ≠ [])
    (h : ∀ c ∈ digits, c.isDigit = true) (leading : Int) :
    ∃ zeros : Nat, prefixDecimal? (Layout.plain.positional digits leading) = some
      ⟨Nat.ofDigitChars 10 digits 0 * Nat.pow 10 zeros, leading - digits.length + 1 - zeros⟩ := by
  rcases Int.lt_or_le leading 0 with small | large
  · refine ⟨0, ?_⟩
    rw [Layout.positional_of_neg nonempty small]
    refine (prefixDecimal?_point (List.cons_ne_nil '0' []) ?_ (isDigit_padded h).1).trans ?_
    · exact List.all_eq_true.mp rfl
    · simp [decimal, Nat.ofDigitChars_cons, Nat.ofDigitChars_append,
        Nat.ofDigitChars_replicate_zero]
      omega
  · obtain ⟨k, hk⟩ : ∃ k : Nat, leading + 1 = k := ⟨(leading + 1).toNat, by omega⟩
    rcases Nat.lt_or_ge k digits.length with fractional | whole
    · refine ⟨0, ?_⟩
      rw [Layout.positional_of_lt hk (by omega) fractional, prefixDecimal?_point ?_
        (fun c hc => h c (List.mem_of_mem_take hc)) fun c hc => h c (List.mem_of_mem_drop hc)]
      · simp [decimal]
        omega
      · simpa using ⟨by omega, nonempty⟩
    · refine ⟨k - digits.length, ?_⟩
      rw [Layout.positional_of_ge hk (by omega) whole,
        prefixDecimal?_whole (by simp [nonempty]) (isDigit_padded h).2]
      simp [decimal, Nat.ofDigitChars_append, Nat.ofDigitChars_replicate_zero, Nat.mul_comm]
      omega

theorem isPart_of_mem_positional {digits : List Char} {leading : Int} {c : Char}
    (h : ∀ c ∈ digits, c.isDigit = true) (hc : c ∈ Layout.plain.positional digits leading) :
    isPart c = true := by
  rcases Layout.mem_positional hc with digit | rfl | rfl
  · simp [isPart, h c digit]
  · decide
  · decide

end Numeral

namespace Binary64

variable {x : Binary64}

theorem toText_of_finite (finite : x.isFinite = true) (positive : x.isNegative = false) :
    x.toText = Layout.plain.write (shortest x.magnitude) := by
  have number : x.isNaN = false := by
    simp only [isFinite, isNaN, decide_eq_true_eq, decide_eq_false_iff_not] at *
    omega
  simp [toText, number, finite, writeFinite, positive]

theorem isDigit_of_mem_digits {d : Decimal} {c : Char} (h : c ∈ d.digits) : c.isDigit = true :=
  Nat.isDigit_of_mem_toDigits (by decide) (by decide) h

theorem toList_write_plain (d : Decimal) : (Layout.plain.write d).toList =
    Layout.plain.positional d.digits (d.exponent + d.digits.length - 1) := by
  simp [Layout.write, Layout.plain]

theorem value_write_plain (d : Decimal) :
    Numeral.value (Layout.plain.write d).toList = ofDecimal d := by
  have nonempty : d.digits ≠ [] := Nat.toDigits_ne_nil
  obtain ⟨zeros, read⟩ := Numeral.prefixDecimal?_positional nonempty
    (fun _ => isDigit_of_mem_digits) (d.exponent + d.digits.length - 1)
  have coefficient : Nat.ofDigitChars 10 d.digits 0 = d.coefficient :=
    Nat.ofDigitChars_toDigits (by decide) (by decide)
  have exponent : d.exponent + d.digits.length - 1 - d.digits.length + 1 - zeros + zeros =
    d.exponent := by omega
  rw [toList_write_plain, Numeral.value, read, coefficient]
  simp only [ofDecimal, magnitudeOfDecimal_zeros, exponent]

/-- A finite number without a sign reads back from its text. -/
theorem value_toText (finite : x.isFinite = true) (positive : x.isNegative = false) :
    Numeral.value x.toText.toList = x := by
  have small : x.magnitude < infinite := by simpa [isFinite] using finite
  rw [toText_of_finite finite positive, value_write_plain, ofDecimal,
    magnitudeOfDecimal_shortest small, ofMagnitude_magnitude positive]

theorem lexeme_toText (finite : x.isFinite = true) (positive : x.isNegative = false) :
    Token.Lexeme x.toText.toList (.number x) := by
  have spelled : Token.Lexeme x.toText.toList (.number (Numeral.value x.toText.toList)) := by
    rw [toText_of_finite finite positive, toList_write_plain]
    apply Token.Lexeme.numeral
    · exact Layout.positional_ne_nil Nat.toDigits_ne_nil
    · intro c hc
      exact Numeral.isPart_of_mem_positional (fun _ => isDigit_of_mem_digits) hc
  rwa [value_toText finite positive] at spelled

end Binary64

end Formula
