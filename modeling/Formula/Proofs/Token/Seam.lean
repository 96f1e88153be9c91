import Formula.Proofs.Token.Lexeme

/-! # Tokens across a line break

A lexeme is a first character with all those behind it that go on from it. A line break ends
whatever stands before it: a lexeme, a comment or blanks. The tokens of a text with a line
break are therefore the tokens before it and those behind it.
-/

namespace Formula

namespace Cursor

variable {a b : Cursor}

theorem tokens_of_skipTrivia (h : a.skipTrivia = b.skipTrivia) : a.tokens = b.tokens := by
  rw [tokens.eq_1 a, tokens.eq_1 b]
  split
  next ended =>
    split
    · rfl
    next c ahead => simp [← h, ended] at ahead
  next c ahead =>
    split
    next ended => simp [h, ended] at ahead
    next d ahead' =>
      obtain rfl : c = d := by simpa [h, ahead'] using ahead.symm
      rw [h]

end Cursor

namespace Token

theorem ofChars_comment (rest : List Char) :
    ofChars ('#' :: rest) = ofChars (rest.dropWhile fun c => !Cursor.isLineBreak c) := by
  have start : ((Cursor.ofChars ('#' :: rest)).dropWhile Text.isBlank).text = '#' :: rest := by
    rw [Cursor.text_dropWhile, Cursor.text_ofChars, List.dropWhile_cons_of_pos (by decide),
      List.dropWhile_cons_of_neg (by decide)]
  have comment : ((Cursor.ofChars ('#' :: rest)).dropWhile Text.isBlank).ahead = some '#' := by
    rw [Cursor.ahead_eq, start, List.head?_cons]
  have behind := Cursor.skipTrivia.eq_1 (Cursor.ofChars ('#' :: rest))
  rw [dif_pos comment] at behind
  rw [ofChars, Cursor.tokens_of_skipTrivia behind, tokens_eq_ofChars, Cursor.text_dropWhile,
    Cursor.text_advance comment, start, List.tail_cons]

theorem ofChars_word {c : Char} (alpha : c.isAlpha = true) (rest : List Char) :
    ofChars (c :: rest) = ofWord ((c :: rest).takeWhile Char.isAlphanum) ::
      ofChars ((c :: rest).dropWhile Char.isAlphanum) := by
  obtain ⟨blank, code⟩ := not_isBlank (.inl alpha)
  obtain ⟨cursor, text, read⟩ := ofChars_code blank code rest
  rw [read, Cursor.readToken, if_pos alpha]
  simp only [Cursor.takeWhile_run, Cursor.text_takeWhile, text]

theorem ofChars_numeral {c : Char} (part : Numeral.isPart c = true) (rest : List Char) :
    ofChars (c :: rest) = .number (Numeral.value ((c :: rest).takeWhile Numeral.isPart)) ::
      ofChars ((c :: rest).dropWhile Numeral.isPart) := by
  obtain ⟨blank, code⟩ := not_isBlank (.inr part)
  obtain ⟨cursor, text, read⟩ := ofChars_code blank code rest
  rw [read, Cursor.readToken, if_neg (not_isAlpha_of_isPart part), if_pos part]
  simp only [Cursor.takeWhile_run, Cursor.text_takeWhile, text]

/-- The characters with which a lexeme goes on that begins with the given one. -/
def goesOn (c : Char) : Char → Bool :=
  if c.isAlpha then Char.isAlphanum
  else if Numeral.isPart c then Numeral.isPart
  else fun _ => false

def ofLexeme (c : Char) (more : List Char) : Token :=
  if c.isAlpha then ofWord (c :: more)
  else if Numeral.isPart c then .number (Numeral.value (c :: more))
  else .symbol c

variable {c : Char}

theorem goesOn_of_isAlpha (h : c.isAlpha = true) : goesOn c = Char.isAlphanum := if_pos h

theorem goesOn_of_isPart (h : Numeral.isPart c = true) : goesOn c = Numeral.isPart := by
  rw [goesOn, if_neg (not_isAlpha_of_isPart h), if_pos h]

theorem goesOn_of_isSymbolic (h : isSymbolic c = true) : goesOn c = fun _ => false := by
  simp only [isSymbolic, Bool.not_eq_true', Bool.or_eq_false_iff] at h
  rw [goesOn, if_neg (by simp [h.1.2]), if_neg (by simp [h.2])]

theorem ofLexeme_of_isAlpha (h : c.isAlpha = true) (more : List Char) :
    ofLexeme c more = ofWord (c :: more) := if_pos h

theorem ofLexeme_of_isPart (h : Numeral.isPart c = true) (more : List Char) :
    ofLexeme c more = .number (Numeral.value (c :: more)) := by
  rw [ofLexeme, if_neg (not_isAlpha_of_isPart h), if_pos h]

theorem ofLexeme_of_isSymbolic (h : isSymbolic c = true) (more : List Char) :
    ofLexeme c more = .symbol c := by
  simp only [isSymbolic, Bool.not_eq_true', Bool.or_eq_false_iff] at h
  rw [ofLexeme, if_neg (by simp [h.1.2]), if_neg (by simp [h.2])]

theorem goesOn_line (c : Char) : goesOn c '\n' = false := by
  unfold goesOn
  split
  · rfl
  · split <;> rfl

theorem ofChars_lexeme (blank : Text.isBlank c = false) (code : c ≠ '#') (more : List Char) :
    ofChars (c :: more) =
      ofLexeme c (more.takeWhile (goesOn c)) :: ofChars (more.dropWhile (goesOn c)) := by
  by_cases alpha : c.isAlpha = true
  · have alphanum : c.isAlphanum = true := by simp [Char.isAlphanum, alpha]
    rw [ofChars_word alpha, goesOn_of_isAlpha alpha, ofLexeme_of_isAlpha alpha,
      List.takeWhile_cons_of_pos alphanum, List.dropWhile_cons_of_pos alphanum]
  by_cases part : Numeral.isPart c = true
  · rw [ofChars_numeral part, goesOn_of_isPart part, ofLexeme_of_isPart part,
      List.takeWhile_cons_of_pos part, List.dropWhile_cons_of_pos part]
  · have symbolic : isSymbolic c = true := by simp [isSymbolic, blank, code, alpha, part]
    rw [ofChars_symbol symbolic, ofLexeme_of_isSymbolic symbolic, goesOn_of_isSymbolic symbolic]
    cases more <;> simp

theorem takeWhile_append_of_neg {p : Char → Bool} {c : Char} (hc : p c = false)
    (chars rest : List Char) :
    (chars ++ c :: rest).takeWhile p = chars.takeWhile p ∧
      (chars ++ c :: rest).dropWhile p = chars.dropWhile p ++ c :: rest := by
  induction chars with
  | nil => simp [hc]
  | cons d chars ih =>
    cases hd : p d with
    | true => simp [hd, ih]
    | false => simp [hd]

/-- A line break separates the tokens of all texts with no more than `n` characters. -/
def LineSeparates (rest : List Char) (n : Nat) : Prop :=
  ∀ chars : List Char, chars.length ≤ n →
    ofChars (chars ++ '\n' :: rest) = ofChars chars ++ ofChars rest

/-- A line break separates tokens, also where it ends a comment. -/
theorem lineSeparates (rest : List Char) (n : Nat) : LineSeparates rest n := by
  induction n with
  | zero =>
    intro chars empty
    obtain rfl := List.eq_nil_of_length_eq_zero (Nat.le_zero.mp empty)
    rw [List.nil_append, ofChars_blank (by decide), ofChars_nil, List.nil_append]
  | succ n ih =>
    intro chars hn
    match chars with
    | [] => exact ih [] (Nat.zero_le n)
    | c :: more =>
      have shorter : LineSeparates rest more.length := fun left hl =>
        ih left (Nat.le_trans hl (Nat.le_of_succ_le_succ hn))
      by_cases blank : Text.isBlank c = true
      · rw [List.cons_append, ofChars_blank blank, ofChars_blank blank,
          shorter more (Nat.le_refl _)]
      by_cases comment : c = '#'
      · subst comment
        obtain ⟨-, behind⟩ := takeWhile_append_of_neg
          (p := fun c => !Cursor.isLineBreak c) (c := '\n') (by decide) more rest
        rw [List.cons_append, ofChars_comment, ofChars_comment, behind,
          shorter _ (List.dropWhile_suffix _).length_le]
      have blank' : Text.isBlank c = false := by simpa using blank
      obtain ⟨run, behind⟩ := takeWhile_append_of_neg (goesOn_line c) more rest
      rw [List.cons_append, ofChars_lexeme blank' comment, run, behind,
        shorter _ (List.dropWhile_suffix _).length_le, ofChars_lexeme blank' comment,
        List.cons_append]

theorem ofChars_append_line (chars rest : List Char) :
    ofChars (chars ++ '\n' :: rest) = ofChars chars ++ ofChars rest :=
  lineSeparates rest chars.length chars (Nat.le_refl _)

end Token

end Formula
