import Formula.Token.Cursor

/-! # Lexemes

The tokens of a source depend on its text alone. A word or a numeral is read up to the
first character that cannot belong to it, so a lexeme followed by anything else is read
as its token, and every sequence of tokens that have lexemes is that of some text.
-/

namespace Formula

namespace Cursor

variable {a b : Cursor}

theorem text_advance {cursor : Cursor} {c : Char} (h : cursor.ahead = some c) :
    cursor.advance.text = cursor.text.tail := by
  rw [text_of_ahead h, List.tail_cons]

theorem text_dropWhile (p : Char → Bool) (cursor : Cursor) :
    (cursor.dropWhile p).text = cursor.text.dropWhile p := text_takeWhile p cursor

theorem ahead_congr (h : a.text = b.text) : a.ahead = b.ahead := by
  rw [ahead_eq, ahead_eq, h]

theorem text_skipTrivia_congr
    (h : a.text.dropWhile Text.isBlank = b.text.dropWhile Text.isBlank) :
    a.skipTrivia.text = b.skipTrivia.text := by
  fun_induction skipTrivia a generalizing b
  case case1 a start comment ih =>
    have started : start.text = (b.dropWhile Text.isBlank).text := by
      rw [text_dropWhile, text_dropWhile, h]
    have comment' : (b.dropWhile Text.isBlank).ahead = some '#' :=
      (ahead_congr started).symm.trans comment
    rw [skipTrivia.eq_1 b, dif_pos comment']
    refine ih (congrArg (List.dropWhile Text.isBlank) ?_)
    rw [text_dropWhile, text_dropWhile, text_advance comment, text_advance comment', started]
  case case2 a start code =>
    have started : start.text = (b.dropWhile Text.isBlank).text := by
      rw [text_dropWhile, text_dropWhile, h]
    have code' : ¬ (b.dropWhile Text.isBlank).ahead = some '#' :=
      fun comment => code ((ahead_congr started).trans comment)
    rw [skipTrivia.eq_1 b, dif_neg code']
    exact started

theorem readToken_congr (h : a.text = b.text) {c : Char} (ha : a.ahead = some c) :
    (a.readToken c).1 = (b.readToken c).1 ∧
      (a.readToken c).2.text = (b.readToken c).2.text := by
  have hb : b.ahead = some c := (ahead_congr h).symm.trans ha
  unfold readToken
  split
  · simp only [takeWhile_run, text_takeWhile, h, and_self]
  · split
    · simp only [takeWhile_run, text_takeWhile, h, and_self]
    · simp only [text_advance ha, text_advance hb, h, and_self]

theorem tokens_congr (h : a.text.dropWhile Text.isBlank = b.text.dropWhile Text.isBlank) :
    a.tokens = b.tokens := by
  fun_induction tokens a generalizing b
  case case1 a ended =>
    have same := text_skipTrivia_congr h
    rw [tokens.eq_1 b]
    split
    · rfl
    next c ahead => exact absurd ((ahead_congr same).trans ahead) (by simp [ended])
  case case2 a c ahead _ ih =>
    have same := text_skipTrivia_congr h
    rw [tokens.eq_1 b]
    split
    next ended => exact absurd ((ahead_congr same).symm.trans ahead) (by simp [ended])
    next d ahead' =>
      obtain rfl : c = d := Option.some.inj (ahead.symm.trans ((ahead_congr same).trans ahead'))
      have read := readToken_congr same ahead
      rw [ih (congrArg _ read.2)]
      exact congrArg (· :: _) read.1

theorem text_skipTrivia_of_code {cursor : Cursor} {c : Char} {rest : List Char}
    (h : cursor.text.dropWhile Text.isBlank = c :: rest) (code : c ≠ '#') :
    cursor.skipTrivia.text = c :: rest := by
  have start : (cursor.dropWhile Text.isBlank).text = c :: rest := by rw [text_dropWhile, h]
  rw [skipTrivia, dif_neg]
  · exact start
  · simpa [ahead_eq, start] using code

theorem skipTrivia_code {cursor : Cursor} {c : Char} (h : cursor.skipTrivia.ahead = some c) :
    Text.isBlank c = false ∧ c ≠ '#' := by
  fun_induction skipTrivia cursor
  case case1 cursor start comment ih => exact ih h
  case case2 cursor start code =>
    constructor
    · rw [ahead_eq, text_dropWhile] at h
      have stops := List.head?_dropWhile_not Text.isBlank cursor.text
      rw [h] at stops
      simpa using stops
    · rintro rfl
      exact code h

end Cursor

namespace Token

def ofChars (chars : List Char) : List Token := (Cursor.ofChars chars).tokens

theorem ofText_eq (text : String) : ofText text = ofChars text.toList := rfl

theorem tokens_eq_ofChars (cursor : Cursor) : cursor.tokens = ofChars cursor.text := by
  refine Cursor.tokens_congr ?_
  rw [Cursor.text_ofChars, List.dropWhile_cons_of_pos (by decide)]

theorem ofChars_nil : ofChars [] = [] := by decide +kernel

theorem ofChars_blank {c : Char} (h : Text.isBlank c = true) (rest : List Char) :
    ofChars (c :: rest) = ofChars rest := by
  refine Cursor.tokens_congr ?_
  have space : Text.isBlank ' ' = true := by decide
  simp [Cursor.text_ofChars, space, h]

theorem ofChars_code {c : Char} (blank : Text.isBlank c = false) (code : c ≠ '#')
    (rest : List Char) : ∃ cursor : Cursor, cursor.text = c :: rest ∧
      ofChars (c :: rest) = (cursor.readToken c).1 :: ofChars (cursor.readToken c).2.text := by
  have start : (Cursor.ofChars (c :: rest)).skipTrivia.text = c :: rest := by
    refine Cursor.text_skipTrivia_of_code ?_ code
    have space : Text.isBlank ' ' = true := by decide
    simp [Cursor.text_ofChars, space, blank]
  refine ⟨_, start, ?_⟩
  rw [ofChars, Cursor.tokens]
  split
  next ended => simp [Cursor.ahead_eq, start] at ended
  next d ahead =>
    obtain rfl : d = c := by simpa [Cursor.ahead_eq, start] using ahead.symm
    rw [← tokens_eq_ofChars]

def isSymbolic (c : Char) : Bool :=
  !(Text.isBlank c || c == '#' || c.isAlpha || Numeral.isPart c)

/-- The characters that spell a token. -/
inductive Lexeme : List Char → Token → Prop where
  | word {c : Char} {rest : List Char} : c.isAlpha = true →
    (∀ d ∈ rest, d.isAlphanum = true) → Lexeme (c :: rest) (ofWord (c :: rest))
  | numeral {run : List Char} : run ≠ [] → (∀ d ∈ run, Numeral.isPart d = true) →
    Lexeme run (.number (Numeral.value run))
  | symbol {c : Char} : isSymbolic c = true → Lexeme [c] (.symbol c)

/-- No word and no numeral goes on into these characters. -/
def Breaks (rest : List Char) : Prop :=
  ∀ c, rest.head? = some c → c.isAlphanum = false ∧ Numeral.isPart c = false

theorem breaks_nil : Breaks [] := nofun

theorem takeWhile_of_breaks {p : Char → Bool} {run rest : List Char}
    (all : ∀ d ∈ run, p d = true) (stops : ∀ c, rest.head? = some c → p c = false) :
    (run ++ rest).takeWhile p = run ∧ (run ++ rest).dropWhile p = rest := by
  rw [List.takeWhile_append_of_pos all, List.dropWhile_append_of_pos all]
  cases rest with
  | nil => simp
  | cons c rest => simp [stops c rfl]

theorem isAlpha_iff {c : Char} :
    c.isAlpha = true ↔ (65 ≤ c.toNat ∧ c.toNat ≤ 90) ∨ (97 ≤ c.toNat ∧ c.toNat ≤ 122) := by
  delta Char.isAlpha Char.isUpper Char.isLower
  simp [UInt32.le_iff_toNat_le]

theorem isPart_iff {c : Char} :
    Numeral.isPart c = true ↔ (48 ≤ c.toNat ∧ c.toNat ≤ 57) ∨ c.toNat = 46 := by
  simp [Numeral.isPart, Char.isDigit, UInt32.le_iff_toNat_le, Char.ext_iff, ← UInt32.toNat_inj]

theorem not_isAlpha_of_isPart {c : Char} (h : Numeral.isPart c = true) : ¬ c.isAlpha = true := by
  rw [isPart_iff] at h
  rw [isAlpha_iff]
  omega

theorem not_isBlank {c : Char} (h : c.isAlpha = true ∨ Numeral.isPart c = true) :
    Text.isBlank c = false ∧ c ≠ '#' := by
  rw [isAlpha_iff, isPart_iff] at h
  constructor
  · simp [Text.isBlank, Text.blankRanges]
    omega
  · rintro rfl
    revert h
    decide

theorem ofChars_symbol {c : Char} (h : isSymbolic c = true) (rest : List Char) :
    ofChars (c :: rest) = .symbol c :: ofChars rest := by
  simp only [isSymbolic, Bool.not_eq_true', Bool.or_eq_false_iff, beq_eq_false_iff_ne] at h
  obtain ⟨⟨⟨blank, code⟩, alpha⟩, part⟩ := h
  obtain ⟨cursor, text, read⟩ := ofChars_code blank code rest
  have ahead : cursor.ahead = some c := by simp [Cursor.ahead_eq, text]
  rw [read, Cursor.readToken, if_neg (by simp [alpha]), if_neg (by simp [part]),
    Cursor.text_advance ahead, text, List.tail_cons]

theorem Lexeme.read {lexeme : List Char} {token : Token} (h : Lexeme lexeme token)
    {rest : List Char} (hb : Breaks rest) : ofChars (lexeme ++ rest) = token :: ofChars rest := by
  cases h with
  | @word c word alpha all =>
    have whole : ∀ d ∈ c :: word, d.isAlphanum = true := by simpa [Char.isAlphanum, alpha] using all
    obtain ⟨blank, code⟩ := not_isBlank (.inl alpha)
    obtain ⟨cursor, text, read⟩ := ofChars_code blank code (word ++ rest)
    obtain ⟨run, behind⟩ := takeWhile_of_breaks whole fun d hd => (hb d hd).1
    rw [List.cons_append, read, Cursor.readToken, if_pos alpha]
    simp only [Cursor.takeWhile_run, Cursor.text_takeWhile, text]
    rw [← List.cons_append, run, behind]
  | numeral nonempty all =>
    obtain ⟨c, run, rfl⟩ := List.exists_cons_of_ne_nil nonempty
    have part := all c (by simp)
    obtain ⟨blank, code⟩ := not_isBlank (.inr part)
    obtain ⟨cursor, text, read⟩ := ofChars_code blank code (run ++ rest)
    obtain ⟨taken, behind⟩ := takeWhile_of_breaks all fun d hd => (hb d hd).2
    rw [List.cons_append, read, Cursor.readToken, if_neg (not_isAlpha_of_isPart part),
      if_pos part]
    simp only [Cursor.takeWhile_run, Cursor.text_takeWhile, text]
    rw [← List.cons_append, taken, behind]
  | symbol symbolic => exact ofChars_symbol symbolic rest

theorem lexeme_readToken {cursor : Cursor} {c : Char} (ahead : cursor.ahead = some c)
    (blank : Text.isBlank c = false) (code : c ≠ '#') :
    ∃ lexeme, Lexeme lexeme (cursor.readToken c).1 := by
  have text := Cursor.text_of_ahead ahead
  unfold Cursor.readToken
  split
  next alpha =>
    have alphanum : c.isAlphanum = true := by simp [Char.isAlphanum, alpha]
    refine ⟨c :: cursor.advance.text.takeWhile Char.isAlphanum, ?_⟩
    simp only [Cursor.takeWhile_run, text, List.takeWhile_cons_of_pos alphanum]
    exact .word alpha fun d hd => List.all_eq_true.mp List.all_takeWhile d hd
  next alpha =>
    split
    next part =>
      refine ⟨cursor.text.takeWhile Numeral.isPart, ?_⟩
      simp only [Cursor.takeWhile_run]
      refine .numeral ?_ fun d hd => List.all_eq_true.mp List.all_takeWhile d hd
      rw [text, List.takeWhile_cons_of_pos part]
      exact List.cons_ne_nil _ _
    next part => exact ⟨[c], .symbol (by simp [isSymbolic, blank, code, alpha, part])⟩

/-- Every token of a source is spelled in it. -/
theorem exists_lexeme {cursor : Cursor} {token : Token} (h : token ∈ cursor.tokens) :
    ∃ lexeme, Lexeme lexeme token := by
  fun_induction Cursor.tokens cursor
  case case1 => cases h
  case case2 cursor c ahead step ih =>
    rcases List.mem_cons.mp h with rfl | later
    · obtain ⟨blank, code⟩ := Cursor.skipTrivia_code ahead
      exact lexeme_readToken ahead blank code
    · exact ih later

theorem exists_text {tokens : List Token} (h : ∀ token ∈ tokens, ∃ lexeme, Lexeme lexeme token) :
    ∃ text, ofText text = tokens := by
  induction tokens with
  | nil => exact ⟨"", ofChars_nil⟩
  | cons token tokens ih =>
    obtain ⟨lexeme, spelled⟩ := h token (by simp)
    obtain ⟨text, rest⟩ := ih fun t ht => h t (by simp [ht])
    refine ⟨String.ofList (lexeme ++ ' ' :: text.toList), ?_⟩
    have space : Breaks (' ' :: text.toList) := by
      rintro _ ⟨⟩
      decide
    rw [ofText_eq, String.toList_ofList, spelled.read space, ofChars_blank (by decide),
      ← ofText_eq, rest]

end Token

end Formula
