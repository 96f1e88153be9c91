import Formula.Proofs.Token.Seam
import Formula.Proofs.Token.Spelling

/-! # Texts cut into lexemes

A text is cut into lexemes, with blanks and comments before each of them and at the end. A
word and a numeral go on as long as they can, and a comment to the end of its line, so that
there is one way to cut a text. Reading it gives the tokens of its lexemes.
-/

namespace Formula

/-- Reading token after token gives these, and then the end. -/
inductive Cursor.Yields : Cursor → List Token → Prop where
  | ended {cursor rest : Cursor} : cursor.next = (none, rest) → Yields cursor []
  | token {cursor rest : Cursor} {token : Token} {tokens : List Token} :
    cursor.next = (some token, rest) → Yields rest tokens → Yields cursor (token :: tokens)

theorem Cursor.yields_tokens (cursor : Cursor) : cursor.Yields cursor.tokens := by
  fun_induction tokens cursor with
  | case1 cursor ended =>
    have next_eq : cursor.next = (none, cursor.skipTrivia) := by simp [next, ended]
    exact .ended next_eq
  | case2 cursor c ahead step ih =>
    have next_eq : cursor.next = (some step.1, step.2) := by simp [next, ahead, step]
    exact .token next_eq ih

namespace Token

def Stops (p : Char → Bool) (rest : List Char) : Prop := ∀ c, rest.head? = some c → p c = false

/-- Blanks and comments, where the given characters follow; a comment ends before a line break. -/
inductive Trivia : List Char → List Char → Prop where
  | nil (rest : List Char) : Trivia [] rest
  | blank {c : Char} {trivia rest : List Char} : Text.isBlank c = true → Trivia trivia rest →
    Trivia (c :: trivia) rest
  | comment {line trivia rest : List Char} : (∀ c ∈ line, (!Cursor.isLineBreak c) = true) →
    Stops (fun c => !Cursor.isLineBreak c) (trivia ++ rest) → Trivia trivia rest →
    Trivia ('#' :: (line ++ trivia)) rest

/-- The longest characters that spell the token, where the given characters follow. -/
inductive Munch : List Char → Token → List Char → Prop where
  | define {rest : List Char} : Stops Char.isAlphanum rest → Munch ['d', 'e', 'f'] .define rest
  | external {rest : List Char} : Stops Char.isAlphanum rest →
    Munch ['e', 'x', 't', 'e', 'r', 'n'] .external rest
  | identifier {name : String} {rest : List Char} : IsName name → Stops Char.isAlphanum rest →
    Munch name.toList (.identifier name) rest
  | number {run rest : List Char} : run ≠ [] → (∀ c ∈ run, Numeral.isPart c = true) →
    Stops Numeral.isPart rest → Munch run (.number (Numeral.value run)) rest
  | symbol {c : Char} (rest : List Char) : isSymbolic c = true → Munch [c] (.symbol c) rest

structure Piece where
  trivia : List Char
  lexeme : List Char
  token : Token

def Piece.chars (piece : Piece) : List Char := piece.trivia ++ piece.lexeme

/-- The text is cut into the pieces, with the given blanks and comments behind them. -/
inductive Cutting : List Piece → List Char → List Char → Prop where
  | last {trivia : List Char} : Trivia trivia [] → Cutting [] trivia trivia
  | piece {piece : Piece} {pieces : List Piece} {last rest : List Char} :
    Trivia piece.trivia (piece.lexeme ++ rest) → Munch piece.lexeme piece.token rest →
    Cutting pieces last rest → Cutting (piece :: pieces) last (piece.chars ++ rest)

variable {trivia trivia' lexeme lexeme' rest rest' : List Char} {token token' : Token} {c : Char}

theorem stops_dropWhile (p : Char → Bool) (chars : List Char) : Stops p (chars.dropWhile p) := by
  intro c head
  have stops := List.head?_dropWhile_not p chars
  rw [head] at stops
  simpa using stops

theorem stops_nil (p : Char → Bool) : Stops p [] := nofun

theorem stops_cons {p : Char → Bool} (h : p c = false) (rest : List Char) :
    Stops p (c :: rest) := by
  rintro _ ⟨⟩
  exact h

theorem Stops.append_inj {p : Char → Bool} {run run' : List Char} (stops : Stops p rest)
    (stops' : Stops p rest') (all : ∀ c ∈ run, p c = true) (all' : ∀ c ∈ run', p c = true)
    (same : run ++ rest = run' ++ rest') : run = run' ∧ rest = rest' := by
  obtain ⟨taken, behind⟩ := takeWhile_of_breaks all stops
  obtain ⟨taken', behind'⟩ := takeWhile_of_breaks all' stops'
  rw [same] at taken behind
  exact ⟨taken.symm.trans taken', behind.symm.trans behind'⟩

def Opens (rest : List Char) : Prop :=
  ∀ c, rest.head? = some c → Text.isBlank c = false ∧ c ≠ '#'

theorem opens_nil : Opens [] := nofun

theorem opens_cons (blank : Text.isBlank c = false) (code : c ≠ '#') (rest : List Char) :
    Opens (c :: rest) := by
  rintro _ ⟨⟩
  exact ⟨blank, code⟩

theorem Trivia.read (h : Trivia trivia rest) : ofChars (trivia ++ rest) = ofChars rest := by
  induction h with
  | nil => rfl
  | blank blank _ ih => rw [List.cons_append, ofChars_blank blank, ih]
  | comment inside ends _ ih =>
    obtain ⟨-, behind⟩ := takeWhile_of_breaks inside ends
    rw [List.cons_append, List.append_assoc, ofChars_comment, behind, ih]

theorem Trivia.eq_nil_of_opens (h : Trivia trivia rest) (opens : Opens (trivia ++ rest)) :
    trivia = [] := by
  cases h with
  | nil => rfl
  | @blank c _ _ blank => exact absurd blank (by simp [(opens c rfl).1])
  | comment => exact absurd rfl (opens '#' rfl).2

/-- Before a lexeme and at the end, blanks and comments go as far as they can. -/
theorem Trivia.unique (h : Trivia trivia rest) (h' : Trivia trivia' rest') (opens : Opens rest)
    (opens' : Opens rest') (same : trivia ++ rest = trivia' ++ rest') : trivia = trivia' := by
  have hash : ¬ Text.isBlank '#' = true := by decide
  induction h generalizing trivia' with
  | nil rest => exact (h'.eq_nil_of_opens (same ▸ opens)).symm
  | @blank c trivia rest blank skipped ih =>
    cases h' with
    | nil => exact (Trivia.blank blank skipped).eq_nil_of_opens (same ▸ opens')
    | blank _ later =>
      rw [List.cons_append, List.cons_append] at same
      obtain ⟨rfl, behind⟩ := List.cons.inj same
      rw [ih later opens behind]
    | comment =>
      rw [List.cons_append, List.cons_append] at same
      obtain ⟨rfl, -⟩ := List.cons.inj same
      exact absurd blank hash
  | @comment line trivia rest inside ends skipped ih =>
    cases h' with
    | nil => exact (Trivia.comment inside ends skipped).eq_nil_of_opens (same ▸ opens')
    | blank blank =>
      rw [List.cons_append, List.cons_append] at same
      obtain ⟨rfl, -⟩ := List.cons.inj same
      exact absurd blank hash
    | comment inside' ends' later =>
      rw [List.cons_append, List.cons_append, List.append_assoc, List.append_assoc] at same
      obtain ⟨-, same⟩ := List.cons.inj same
      -- Both comments end at the first line break.
      obtain ⟨taken, behind⟩ := takeWhile_of_breaks inside ends
      obtain ⟨taken', behind'⟩ := takeWhile_of_breaks inside' ends'
      rw [same] at taken behind
      rw [← taken, taken', ih later opens (behind.symm.trans behind')]

theorem exists_trivia (chars : List Char) :
    ∃ trivia rest, chars = trivia ++ rest ∧ Trivia trivia rest ∧ Opens rest := by
  induction hn : chars.length using Nat.strongRecOn generalizing chars with
  | ind n ih =>
    subst hn
    match chars with
    | [] => exact ⟨[], [], rfl, .nil [], opens_nil⟩
    | c :: more =>
      by_cases blank : Text.isBlank c = true
      · obtain ⟨trivia, rest, rfl, later, opens⟩ := ih more.length (by simp) more rfl
        exact ⟨c :: trivia, rest, rfl, .blank blank later, opens⟩
      by_cases comment : c = '#'
      · subst comment
        have shorter : (more.dropWhile fun c => !Cursor.isLineBreak c).length ≤ more.length :=
          (List.dropWhile_suffix _).length_le
        obtain ⟨trivia, rest, split, later, opens⟩ :=
          ih _ (Nat.lt_succ_of_le shorter) (more.dropWhile fun c => !Cursor.isLineBreak c) rfl
        have ends := stops_dropWhile (fun c => !Cursor.isLineBreak c) more
        rw [split] at ends
        refine ⟨'#' :: (more.takeWhile (fun c => !Cursor.isLineBreak c) ++ trivia), rest, ?_,
          .comment (fun c hc => List.all_eq_true.mp List.all_takeWhile c hc) ends later, opens⟩
        rw [List.cons_append, List.append_assoc, ← split, List.takeWhile_append_dropWhile]
      · exact ⟨[], c :: more, rfl, .nil _, opens_cons (by simpa using blank) comment more⟩

/-- A first character with all those behind it that go on from it. -/
inductive Runs : List Char → Token → List Char → Prop where
  | intro {c : Char} {more rest : List Char} : Text.isBlank c = false → c ≠ '#' →
    (∀ d ∈ more, goesOn c d = true) → Stops (goesOn c) rest →
    Runs (c :: more) (ofLexeme c more) rest

theorem Runs.word {more : List Char} (alpha : c.isAlpha = true)
    (all : ∀ d ∈ c :: more, d.isAlphanum = true) (stops : Stops Char.isAlphanum rest)
    (spelled : ofWord (c :: more) = token) : Runs (c :: more) token rest := by
  obtain ⟨blank, code⟩ := not_isBlank (.inl alpha)
  rw [← spelled, ← ofLexeme_of_isAlpha alpha more]
  refine .intro blank code ?_ ?_
  · rw [goesOn_of_isAlpha alpha]
    exact fun d hd => all d (List.mem_cons_of_mem c hd)
  · rwa [goesOn_of_isAlpha alpha]

theorem Munch.runs (h : Munch lexeme token rest) : Runs lexeme token rest := by
  cases h with
  | define stops => exact .word (by decide) (List.all_eq_true.mp rfl) stops rfl
  | external stops => exact .word (by decide) (List.all_eq_true.mp rfl) stops rfl
  | @identifier name _ spelled stops =>
    obtain ⟨c, more, chars, alpha⟩ := spelled.begins
    have word := spelled.ofWord_eq
    have all := spelled.alphanumeric
    rw [chars] at word all ⊢
    exact .word alpha all stops word
  | number nonempty all stops =>
    obtain ⟨c, more, rfl⟩ := List.exists_cons_of_ne_nil nonempty
    have part := all c List.mem_cons_self
    obtain ⟨blank, code⟩ := not_isBlank (.inr part)
    rw [← ofLexeme_of_isPart part more]
    refine .intro blank code ?_ ?_
    · rw [goesOn_of_isPart part]
      exact fun d hd => all d (List.mem_cons_of_mem c hd)
    · rwa [goesOn_of_isPart part]
  | @symbol c _ symbolic =>
    have apart := symbolic
    simp only [isSymbolic, Bool.not_eq_true', Bool.or_eq_false_iff, beq_eq_false_iff_ne] at apart
    rw [← ofLexeme_of_isSymbolic symbolic []]
    refine .intro apart.1.1.1 apart.1.1.2 (List.forall_mem_nil _) ?_
    rw [goesOn_of_isSymbolic symbolic]
    exact fun _ _ => rfl

theorem munch_word {more : List Char} (alpha : c.isAlpha = true)
    (all : ∀ d ∈ c :: more, d.isAlphanum = true) (stops : Stops Char.isAlphanum rest) :
    Munch (c :: more) (ofWord (c :: more)) rest := by
  by_cases define : c :: more = ['d', 'e', 'f']
  · rw [define]
    exact .define stops
  by_cases external : c :: more = ['e', 'x', 't', 'e', 'r', 'n']
  · rw [external]
    exact .external stops
  have word : ofWord (c :: more) = .identifier (String.ofList (c :: more)) := by
    rw [ofWord, if_neg define, if_neg external]
  have named : (ofWord (c :: more)).Named := named_ofWord rfl alpha all
  rw [word]
  simpa using Munch.identifier (named _ word) stops

theorem munch_takeWhile (blank : Text.isBlank c = false) (code : c ≠ '#') (more : List Char) :
    Munch (c :: more.takeWhile (goesOn c)) (ofLexeme c (more.takeWhile (goesOn c)))
      (more.dropWhile (goesOn c)) := by
  have all : ∀ d ∈ more.takeWhile (goesOn c), goesOn c d = true :=
    List.all_eq_true.mp List.all_takeWhile
  have stops := stops_dropWhile (goesOn c) more
  by_cases alpha : c.isAlpha = true
  · rw [goesOn_of_isAlpha alpha] at all stops ⊢
    rw [ofLexeme_of_isAlpha alpha]
    refine munch_word alpha ?_ stops
    simpa [Char.isAlphanum, alpha] using all
  by_cases part : Numeral.isPart c = true
  · rw [goesOn_of_isPart part] at all stops ⊢
    rw [ofLexeme_of_isPart part]
    refine .number (List.cons_ne_nil _ _) ?_ stops
    simpa [part] using all
  · have symbolic : isSymbolic c = true := by simp [isSymbolic, blank, code, alpha, part]
    rw [ofLexeme_of_isSymbolic symbolic, goesOn_of_isSymbolic symbolic]
    cases more <;> exact .symbol _ symbolic

theorem Runs.read (h : Runs lexeme token rest) :
    ofChars (lexeme ++ rest) = token :: ofChars rest := by
  obtain ⟨blank, code, all, stops⟩ := h
  obtain ⟨taken, behind⟩ := takeWhile_of_breaks all stops
  rw [List.cons_append, ofChars_lexeme blank code, taken, behind]

theorem Runs.opens (h : Runs lexeme token rest) : Opens (lexeme ++ rest) := by
  obtain ⟨blank, code, -, -⟩ := h
  exact opens_cons blank code _

theorem Runs.ne_nil (h : Runs lexeme token rest) : lexeme ≠ [] := by
  cases h
  exact List.cons_ne_nil _ _

theorem Runs.unique (h : Runs lexeme token rest) (h' : Runs lexeme' token' rest')
    (same : lexeme ++ rest = lexeme' ++ rest') : lexeme = lexeme' ∧ token = token' := by
  obtain ⟨-, -, all, stops⟩ := h
  obtain ⟨-, -, all', stops'⟩ := h'
  rw [List.cons_append, List.cons_append] at same
  obtain ⟨rfl, behind⟩ := List.cons.inj same
  obtain ⟨taken, -⟩ := takeWhile_of_breaks all stops
  obtain ⟨taken', -⟩ := takeWhile_of_breaks all' stops'
  rw [behind, taken'] at taken
  subst taken
  exact ⟨rfl, rfl⟩

variable {pieces pieces' : List Piece} {last last' chars : List Char}

theorem exists_cutting (chars : List Char) : ∃ pieces last, Cutting pieces last chars := by
  induction hn : chars.length using Nat.strongRecOn generalizing chars with
  | ind n ih =>
    subst hn
    obtain ⟨trivia, rest, rfl, skipped, opens⟩ := exists_trivia chars
    match rest with
    | [] =>
      rw [List.append_nil]
      exact ⟨[], trivia, .last skipped⟩
    | c :: more =>
      obtain ⟨blank, code⟩ := opens c rfl
      have munch := munch_takeWhile blank code more
      have shorter : (more.dropWhile (goesOn c)).length ≤ more.length :=
        (List.dropWhile_suffix _).length_le
      obtain ⟨pieces, last, later⟩ :=
        ih _ (by simp only [List.length_append, List.length_cons]; omega)
          (more.dropWhile (goesOn c)) rfl
      have whole : c :: more = c :: more.takeWhile (goesOn c) ++ more.dropWhile (goesOn c) := by
        rw [List.cons_append, List.takeWhile_append_dropWhile]
      rw [whole] at skipped ⊢
      rw [← List.append_assoc]
      let piece : Piece :=
        ⟨trivia, c :: more.takeWhile (goesOn c), ofLexeme c (more.takeWhile (goesOn c))⟩
      have cutting : Cutting (piece :: pieces) last _ := .piece skipped munch later
      exact ⟨_, _, cutting⟩

theorem Cutting.ofChars_eq (h : Cutting pieces last chars) :
    ofChars chars = pieces.map Piece.token := by
  induction h with
  | last skipped => simpa [ofChars_nil] using skipped.read
  | piece skipped munch _ ih =>
    rw [Piece.chars, List.append_assoc, skipped.read, munch.runs.read, ih, List.map_cons]

theorem Cutting.chars_eq (h : Cutting pieces last chars) :
    pieces.flatMap Piece.chars ++ last = chars := by
  induction h with
  | last => rfl
  | piece _ _ _ ih => rw [List.flatMap_cons, List.append_assoc, ih]

theorem Cutting.eq_nil_of_trivia (h : Cutting pieces last chars) (skipped : Trivia chars []) :
    pieces = [] ∧ last = chars := by
  cases h with
  | last => exact ⟨rfl, rfl⟩
  | @piece piece pieces _ rest before munch _ =>
    have split : (piece.chars ++ rest) ++ [] = piece.trivia ++ (piece.lexeme ++ rest) := by
      rw [List.append_nil, Piece.chars, List.append_assoc]
    have whole := skipped.unique before opens_nil munch.runs.opens split
    rw [whole, List.append_cancel_left_eq, List.nil_eq, List.append_eq_nil_iff] at split
    exact absurd split.1 munch.runs.ne_nil

theorem Cutting.unique (h : Cutting pieces last chars) (h' : Cutting pieces' last' chars) :
    pieces' = pieces ∧ last' = last := by
  induction h generalizing pieces' with
  | last skipped => exact h'.eq_nil_of_trivia skipped
  | @piece piece pieces last rest skipped munch later ih =>
    generalize whole : piece.chars ++ rest = chars at h'
    cases h' with
    | last skipped' =>
      subst whole
      cases ((Cutting.piece skipped munch later).eq_nil_of_trivia skipped').1
    | @piece piece' pieces' _ rest' skipped' munch' later' =>
      rw [Piece.chars, Piece.chars, List.append_assoc, List.append_assoc] at whole
      have trivia := skipped.unique skipped' munch.runs.opens munch'.runs.opens whole
      rw [trivia, List.append_cancel_left_eq] at whole
      obtain ⟨lexeme, token⟩ := munch.runs.unique munch'.runs whole
      rw [lexeme, List.append_cancel_left_eq] at whole
      subst whole
      obtain ⟨rfl, rfl⟩ := ih later'
      refine ⟨?_, rfl⟩
      rcases piece
      rcases piece'
      simp_all

/--
A text is cut in one way into lexemes that are as long as they can be, with blanks and comments
before each of them and at the end. Reading the text gives their tokens, and then the end.
-/
theorem yields_of_cutting (chars : List Char) : ∃ pieces last, Cutting pieces last chars ∧
    (∀ pieces' last', Cutting pieces' last' chars → pieces' = pieces ∧ last' = last) ∧
    pieces.flatMap Piece.chars ++ last = chars ∧
    (Cursor.ofChars chars).Yields (pieces.map Piece.token) := by
  obtain ⟨pieces, last, cutting⟩ := exists_cutting chars
  refine ⟨pieces, last, cutting, fun _ _ other => cutting.unique other, cutting.chars_eq, ?_⟩
  rw [← cutting.ofChars_eq]
  exact Cursor.yields_tokens _

end Token

end Formula
