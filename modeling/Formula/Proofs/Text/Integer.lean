import Formula.Proofs.Binary64.Literal
import Formula.Text.Basic

/-! # Integers between blanks

An integer is read from a literal, or from digits behind a plus sign, and from nothing else. Blanks
at the ends of a text are taken away, and what is left of it is unique.
-/

namespace Formula.Text

/-- The spellings of an integer: its literals, and digits behind a plus sign. -/
inductive WritesInt : List Char → Int → Prop where
  | literal (literal : IntegerLiteral) : WritesInt literal.chars literal.value
  | plus (digits : Digits) : WritesInt ('+' :: digits.chars) (Nat.ofDigitChars 10 digits.chars 0)

structure Trimmed (text core : List Char) : Prop where
  split : ∃ before after, text = before ++ (core ++ after) ∧ (∀ c ∈ before, isBlank c = true) ∧
    ∀ c ∈ after, isBlank c = true
  head : Token.Stops isBlank core
  last : Token.Stops isBlank core.reverse

variable {text core digits : List Char} {n : Int}

theorem natOf?_eq_some_iff {n : Nat} :
    natOf? text = some n ↔
      ∃ digits : Digits, digits.chars = text ∧ Nat.ofDigitChars 10 digits.chars 0 = n := by
  unfold natOf?
  split
  next written =>
    obtain ⟨nonempty, all⟩ := written
    constructor
    · intro value
      exact ⟨⟨text, nonempty, List.all_eq_true.mp all⟩, rfl, Option.some.inj value⟩
    · rintro ⟨digits, rfl, rfl⟩
      rfl
  next unwritten =>
    constructor
    · nofun
    · rintro ⟨digits, rfl, -⟩
      exact absurd ⟨digits.nonempty, List.all_eq_true.mpr digits.isDigit⟩ unwritten

theorem intOf?_minus (digits : List Char) :
    intOf? ('-' :: digits) = (natOf? digits).map fun n : Nat => -(n : Int) := by
  rw [intOf?]
  cases natOf? digits <;> rfl

theorem intOf?_digits (digits : Digits) :
    intOf? digits.chars = some (Nat.ofDigitChars 10 digits.chars 0 : Int) := by
  have value := natOf?_eq_some_iff.mpr ⟨digits, rfl, rfl⟩
  obtain ⟨c, more, same⟩ := List.exists_cons_of_ne_nil digits.nonempty
  have digit := digits.isDigit c (by simp [same])
  unfold intOf?
  split
  next minus =>
    obtain rfl : c = '-' := by simpa [same] using congrArg List.head? minus
    cases digit
  next plus =>
    obtain rfl : c = '+' := by simpa [same] using congrArg List.head? plus
    cases digit
  · rw [value]
    rfl

theorem intOf?_eq_some_iff : intOf? text = some n ↔ WritesInt text n := by
  constructor
  · intro read
    unfold intOf? at read
    split at read
    · obtain ⟨_, value, rfl⟩ := Option.map_eq_some_iff.mp ((intOf?_minus _).symm.trans read)
      obtain ⟨digits, rfl, rfl⟩ := natOf?_eq_some_iff.mp value
      exact .literal ⟨true, digits⟩
    · obtain ⟨_, value, rfl⟩ := Option.map_eq_some_iff.mp read
      obtain ⟨digits, rfl, rfl⟩ := natOf?_eq_some_iff.mp value
      exact .plus digits
    · obtain ⟨_, value, rfl⟩ := Option.map_eq_some_iff.mp read
      obtain ⟨digits, rfl, rfl⟩ := natOf?_eq_some_iff.mp value
      exact .literal ⟨false, digits⟩
  · intro writes
    cases writes with
    | literal literal =>
      obtain ⟨negative, digits⟩ := literal
      cases negative with
      | false => exact intOf?_digits digits
      | true =>
        have value := natOf?_eq_some_iff.mpr ⟨digits, rfl, rfl⟩
        exact (intOf?_minus _).trans (Option.map_eq_some_iff.mpr ⟨_, value, rfl⟩)
    | plus digits =>
      have value := natOf?_eq_some_iff.mpr ⟨digits, rfl, rfl⟩
      exact Option.map_eq_some_iff.mpr ⟨_, value, rfl⟩

theorem int32Of?_eq_some_iff {n : Int32} : int32Of? text = some n ↔ WritesInt text n.toInt := by
  unfold int32Of?
  rw [Option.bind_eq_some_iff]
  constructor
  · rintro ⟨i, read, fits⟩
    split at fits
    next range =>
      obtain rfl := Option.some.inj fits
      rw [Int32.toInt_ofIntLE]
      exact intOf?_eq_some_iff.mp read
    · cases fits
  · intro writes
    refine ⟨n.toInt, intOf?_eq_some_iff.mpr writes, ?_⟩
    rw [dif_pos ⟨Int32.minValue_le_toInt n, Int32.toInt_le n⟩, Int32.ofIntLE_toInt]

theorem trimmed_trimBlanks (text : List Char) : Trimmed text (trimBlanks text) where
  split := by
    refine ⟨text.takeWhile isBlank, ((text.dropWhile isBlank).reverse.takeWhile isBlank).reverse,
      ?_, List.all_eq_true.mp List.all_takeWhile, fun c mem => ?_⟩
    · rw [trimBlanks, ← List.reverse_append, List.takeWhile_append_dropWhile, List.reverse_reverse,
        List.takeWhile_append_dropWhile]
    · exact List.all_eq_true.mp List.all_takeWhile c (List.mem_reverse.mp mem)
  head := by
    -- What is left in the end begins like what is left after the first blanks.
    intro c head
    refine Token.stops_dropWhile isBlank text c ?_
    have front : trimBlanks text <+: text.dropWhile isBlank := by
      have suffix := List.dropWhile_suffix isBlank (l := (text.dropWhile isBlank).reverse)
      simpa [trimBlanks] using List.reverse_prefix.mpr suffix
    obtain ⟨rest, same⟩ := front
    rw [← same, List.head?_append, head, Option.some_or]
  last := by
    rw [trimBlanks, List.reverse_reverse]
    exact Token.stops_dropWhile isBlank _

theorem Trimmed.trimBlanks_eq (h : Trimmed text core) : trimBlanks text = core := by
  obtain ⟨⟨before, after, rfl, blank, blank'⟩, head, last⟩ := h
  cases core with
  | nil =>
    have all : ∀ c ∈ before ++ ([] ++ after), isBlank c = true := by
      intro c mem
      rcases List.mem_append.mp mem with mem | mem
      · exact blank c mem
      · exact blank' c mem
    obtain ⟨-, nothing⟩ := Token.takeWhile_of_breaks all (Token.stops_nil isBlank)
    rw [List.append_nil] at nothing
    rw [trimBlanks, nothing]
    rfl
  | cons c core =>
    have stops : Token.Stops isBlank (c :: core ++ after) := fun d => head d
    obtain ⟨-, front⟩ := Token.takeWhile_of_breaks blank stops
    have blanks : ∀ d ∈ after.reverse, isBlank d = true := fun d mem =>
      blank' d (List.mem_reverse.mp mem)
    obtain ⟨-, back⟩ := Token.takeWhile_of_breaks blanks last
    rw [trimBlanks, front, List.reverse_append, back, List.reverse_reverse]

end Formula.Text

namespace Formula.IntegerLiteral

open Text

theorem eq_minus_or_isDigit {literal : IntegerLiteral} {c : Char} (h : c ∈ literal.chars) :
    c = '-' ∨ c.isDigit = true := by
  rcases List.mem_append.mp h with sign | digit
  · exact .inl (eq_minus_of_mem_signChars sign)
  · exact .inr (literal.digits.isDigit c digit)

theorem isBlank_of_mem {literal : IntegerLiteral} {c : Char} (h : c ∈ literal.chars) :
    isBlank c = false := by
  rcases eq_minus_or_isDigit h with rfl | digit
  · rfl
  · have part : Numeral.isPart c = true := by simp [Numeral.isPart, digit]
    exact (Token.not_isBlank (.inr part)).1

theorem trimmed_chars (literal : IntegerLiteral) : Trimmed literal.chars literal.chars where
  split := ⟨[], [], by simp, nofun, nofun⟩
  head := fun _ head => isBlank_of_mem (List.mem_of_head? head)
  last := fun _ last => isBlank_of_mem (List.mem_reverse.mp (List.mem_of_head? last))

end Formula.IntegerLiteral
