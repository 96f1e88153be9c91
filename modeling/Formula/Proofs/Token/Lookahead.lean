import Formula.Proofs.Token.Segmentation

/-! # One character ahead

A source is asked for the characters of a lexeme and for the one behind it, and never again
after its first end. What it has given and what is left of its text always add up to the same
number, so the reads that a token has taken tell where its lexeme ends.
-/

namespace Formula

namespace Cursor

def after (cursor : Cursor) : Nat → Cursor
  | 0 => cursor
  | k + 1 => cursor.next.2.after k

/-- How often the source has been asked by the time that its end is seen. -/
def readsAtEnd (cursor : Cursor) : Nat := cursor.reads + cursor.text.length

variable {cursor : Cursor} {c : Char}

theorem readsAtEnd_advance (h : cursor.ahead = some c) :
    cursor.advance.readsAtEnd = cursor.readsAtEnd := by
  have reads : cursor.advance.reads = cursor.reads + 1 := rfl
  rw [readsAtEnd, readsAtEnd, text_of_ahead h, List.length_cons, reads]
  omega

theorem readsAtEnd_takeWhile (p : Char → Bool) (cursor : Cursor) :
    (cursor.takeWhile p).2.readsAtEnd = cursor.readsAtEnd := by
  have split := congrArg List.length (cursor.text.takeWhile_append_dropWhile (p := p))
  rw [List.length_append] at split
  rw [readsAtEnd, readsAtEnd, reads_takeWhile, text_takeWhile]
  omega

theorem readsAtEnd_skipTrivia (cursor : Cursor) :
    cursor.skipTrivia.readsAtEnd = cursor.readsAtEnd := by
  fun_induction skipTrivia cursor with
  | case1 cursor start comment ih =>
    rw [ih, dropWhile, readsAtEnd_takeWhile, readsAtEnd_advance comment]
    exact readsAtEnd_takeWhile _ cursor
  | case2 cursor start => exact readsAtEnd_takeWhile _ cursor

theorem readsAtEnd_readToken (h : cursor.ahead = some c) :
    (cursor.readToken c).2.readsAtEnd = cursor.readsAtEnd := by
  unfold readToken
  split
  · exact readsAtEnd_takeWhile _ cursor
  · split
    · exact readsAtEnd_takeWhile _ cursor
    · exact readsAtEnd_advance h

theorem next_of_ended (h : cursor.skipTrivia.ahead = none) :
    cursor.next = (none, cursor.skipTrivia) := by
  simp [next, h]

theorem next_of_ahead (h : cursor.skipTrivia.ahead = some c) : cursor.next =
    (some (cursor.skipTrivia.readToken c).1, (cursor.skipTrivia.readToken c).2) := by
  simp [next, h]

theorem readsAtEnd_next (cursor : Cursor) : cursor.next.2.readsAtEnd = cursor.readsAtEnd := by
  cases ahead : cursor.skipTrivia.ahead with
  | none =>
    rw [next_of_ended ahead]
    exact readsAtEnd_skipTrivia cursor
  | some c =>
    rw [next_of_ahead ahead]
    exact (readsAtEnd_readToken ahead).trans (readsAtEnd_skipTrivia cursor)

theorem readsAtEnd_after (cursor : Cursor) (k : Nat) :
    (cursor.after k).readsAtEnd = cursor.readsAtEnd := by
  induction k generalizing cursor with
  | zero => rfl
  | succ k ih => exact (ih cursor.next.2).trans (readsAtEnd_next cursor)

/-- A source that has not been asked yet is asked once more than it has characters. -/
theorem reads_add_length_next {chars : List Char} (unread : cursor.reads = 0)
    (text : cursor.text = ' ' :: chars) (k : Nat) :
    (cursor.after k).next.2.reads + (cursor.after k).next.2.text.length = chars.length + 1 := by
  have kept := (readsAtEnd_next _).trans (cursor.readsAtEnd_after k)
  rw [readsAtEnd, readsAtEnd, unread, text, List.length_cons, Nat.zero_add] at kept
  exact kept

end Cursor

open Token

namespace Cursor

variable {cursor : Cursor} {c : Char} {trivia lexeme rest : List Char} {token : Token}

theorem text_skipTrivia (h : Trivia trivia rest) (opens : Opens rest)
    (text : cursor.text.dropWhile Text.isBlank = (trivia ++ rest).dropWhile Text.isBlank) :
    cursor.skipTrivia.text = rest := by
  induction h generalizing cursor with
  | nil rest =>
    cases rest with
    | nil =>
      have ended : (cursor.dropWhile Text.isBlank).text = [] := by rw [text_dropWhile, text]; rfl
      rw [skipTrivia, dif_neg (by simp [ahead_eq, ended]), ended]
    | cons c rest =>
      obtain ⟨blank, code⟩ := opens c rfl
      apply text_skipTrivia_of_code _ code
      rw [text, List.nil_append, List.dropWhile_cons_of_neg (by simp [blank])]
  | blank blank _ ih =>
    apply ih opens
    rw [text, List.cons_append, List.dropWhile_cons_of_pos blank]
  | @comment line trivia rest inside ends _ ih =>
    have start : (cursor.dropWhile Text.isBlank).text = '#' :: (line ++ (trivia ++ rest)) := by
      rw [text_dropWhile, text, List.cons_append, List.dropWhile_cons_of_neg (by decide),
        List.append_assoc]
    have hash : (cursor.dropWhile Text.isBlank).ahead = some '#' := by rw [ahead_eq, start]; rfl
    obtain ⟨-, behind⟩ := takeWhile_of_breaks inside ends
    rw [skipTrivia, dif_pos hash]
    apply ih opens
    rw [text_dropWhile, text_advance hash, start, List.tail_cons, behind]

theorem readToken_lexeme (ahead : cursor.ahead = some c) :
    (cursor.readToken c).1 = ofLexeme c (cursor.advance.text.takeWhile (goesOn c)) ∧
      (cursor.readToken c).2.text = cursor.advance.text.dropWhile (goesOn c) := by
  have text := text_of_ahead ahead
  unfold readToken
  split
  next alpha =>
    have alphanum : c.isAlphanum = true := by simp [Char.isAlphanum, alpha]
    rw [goesOn_of_isAlpha alpha, ofLexeme_of_isAlpha alpha]
    simp only [takeWhile_run, text_takeWhile, text, List.takeWhile_cons_of_pos alphanum,
      List.dropWhile_cons_of_pos alphanum, and_self]
  next alpha =>
    split
    next part =>
      rw [goesOn_of_isPart part, ofLexeme_of_isPart part]
      simp only [takeWhile_run, text_takeWhile, text, List.takeWhile_cons_of_pos part,
        List.dropWhile_cons_of_pos part, and_self]
    next part =>
      rw [goesOn, if_neg alpha, if_neg part, ofLexeme, if_neg alpha, if_neg part]
      cases cursor.advance.text <;> simp

theorem next_of_runs (skipped : Trivia trivia (lexeme ++ rest)) (runs : Runs lexeme token rest)
    (text : cursor.text.dropWhile Text.isBlank =
      (trivia ++ (lexeme ++ rest)).dropWhile Text.isBlank) :
    cursor.next.1 = some token ∧ cursor.next.2.text = rest := by
  have start := text_skipTrivia skipped runs.opens text
  cases runs with
  | @intro c more _ _ _ all stops =>
    have ahead : cursor.skipTrivia.ahead = some c := by rw [ahead_eq, start]; rfl
    have behind : cursor.skipTrivia.advance.text = more ++ rest := by
      rw [text_advance ahead, start]
      rfl
    obtain ⟨read, left⟩ := readToken_lexeme ahead
    obtain ⟨run, stop⟩ := takeWhile_of_breaks all stops
    rw [next_of_ahead ahead, read, left, behind, run, stop]
    exact ⟨rfl, rfl⟩

theorem next_of_trivia (skipped : Trivia trivia [])
    (text : cursor.text.dropWhile Text.isBlank = trivia.dropWhile Text.isBlank) :
    cursor.next.1 = none ∧ cursor.next.2.text = [] := by
  have start := text_skipTrivia skipped opens_nil (by rw [text, List.append_nil])
  have ended : cursor.skipTrivia.ahead = none := by rw [ahead_eq, start, List.head?_nil]
  rw [next_of_ended ended]
  exact ⟨rfl, start⟩

theorem text_after_of_ended (h : cursor.text = []) (k : Nat) : (cursor.after k).text = [] := by
  induction k generalizing cursor with
  | zero => exact h
  | succ k ih => exact ih (next_of_trivia (.nil []) (congrArg _ h)).2

variable {pieces : List Piece} {last chars : List Char}

/-- The calls give the tokens of the pieces, each leaving the pieces behind it, and then the end. -/
theorem next_of_cutting (cutting : Cutting pieces last chars)
    (text : cursor.text.dropWhile Text.isBlank = chars.dropWhile Text.isBlank) :
    (∀ k (h : k < pieces.length), (cursor.after k).next.1 = some pieces[k].token ∧
      (cursor.after k).next.2.text = (pieces.drop (k + 1)).flatMap Piece.chars ++ last) ∧
    ∀ k, pieces.length ≤ k →
      (cursor.after k).next.1 = none ∧ (cursor.after k).next.2.text = [] := by
  induction cutting generalizing cursor with
  | last skipped =>
    have ended := next_of_trivia skipped text
    constructor
    · intro k h
      exact absurd h (Nat.not_lt_zero k)
    · rintro (_ | k) -
      · exact ended
      · exact next_of_trivia (.nil []) (congrArg _ (text_after_of_ended ended.2 k))
  | @piece piece pieces last rest skipped munch later ih =>
    have read : cursor.next.1 = some piece.token ∧ cursor.next.2.text = rest := by
      apply next_of_runs skipped munch.runs
      rw [text, Piece.chars, List.append_assoc]
    obtain ⟨tokens, ended⟩ := ih (congrArg _ read.2)
    constructor
    · rintro (_ | k) h
      · exact ⟨read.1, read.2.trans later.chars_eq.symm⟩
      · exact tokens k (Nat.lt_of_succ_lt_succ h)
    · rintro (_ | k) h
      · cases h
      · exact ended k (Nat.le_of_succ_le_succ h)

/-- Where the lexeme of a piece ends in the text, the pieces counted from 0. -/
def lexemeEnd (pieces : List Piece) (k : Nat) : Nat :=
  ((pieces.take (k + 1)).flatMap Piece.chars).length

/--
The calls give the tokens of the pieces and then the end. For a token the source is asked once more
than for the characters up to the end of its lexeme, and for the end once more than for all.
-/
structure ReadsAhead (cursor : Cursor) (pieces : List Piece) (chars : List Char) : Prop where
  token : ∀ k (h : k < pieces.length), (cursor.after k).next.1 = some pieces[k].token ∧
    (cursor.after k).next.2.reads = lexemeEnd pieces k + 1
  ended : ∀ k, pieces.length ≤ k →
    (cursor.after k).next.1 = none ∧ (cursor.after k).next.2.reads = chars.length + 1

theorem readsAhead_of_cutting (cutting : Cutting pieces last chars) (unread : cursor.reads = 0)
    (text : cursor.text = ' ' :: chars) : cursor.ReadsAhead pieces chars := by
  have spaced : cursor.text.dropWhile Text.isBlank = chars.dropWhile Text.isBlank := by
    rw [text, List.dropWhile_cons_of_pos (by decide)]
  obtain ⟨tokens, ended⟩ := next_of_cutting cutting spaced
  have total := reads_add_length_next unread text
  constructor
  · intro k h
    obtain ⟨token, left⟩ := tokens k h
    refine ⟨token, ?_⟩
    have whole : chars.length = lexemeEnd pieces k +
        ((pieces.drop (k + 1)).flatMap Piece.chars ++ last).length := by
      rw [← cutting.chars_eq, lexemeEnd, ← List.length_append, ← List.append_assoc,
        ← List.flatMap_append, List.take_append_drop]
    have sum := total k
    rw [left] at sum
    omega
  · intro k h
    obtain ⟨none_, left⟩ := ended k h
    have sum := total k
    rw [left] at sum
    exact ⟨none_, sum⟩

/-- The call behind `k` others gives the same token at both cursors and asks as often. -/
def AlikeAt (k : Nat) (a b : Cursor) : Prop :=
  (a.after k).next.1 = (b.after k).next.1 ∧ (a.after k).next.2.reads = (b.after k).next.2.reads

theorem ReadsAhead.alikeAt {cursor' : Cursor} (h : cursor.ReadsAhead pieces chars)
    (h' : cursor'.ReadsAhead pieces chars) (k : Nat) : AlikeAt k cursor cursor' := by
  rcases Nat.lt_or_ge k pieces.length with hk | hk
  · obtain ⟨token, reads⟩ := h.token k hk
    obtain ⟨token', reads'⟩ := h'.token k hk
    exact ⟨token.trans token'.symm, reads.trans reads'.symm⟩
  · obtain ⟨none_, reads⟩ := h.ended k hk
    obtain ⟨none_', reads'⟩ := h'.ended k hk
    exact ⟨none_.trans none_'.symm, reads.trans reads'.symm⟩

theorem alikeAt_of_text {cursor' : Cursor} (unread : cursor.reads = 0) (unread' : cursor'.reads = 0)
    (text : cursor.text = ' ' :: chars) (text' : cursor'.text = ' ' :: chars) (k : Nat) :
    AlikeAt k cursor cursor' := by
  obtain ⟨pieces, last, cutting⟩ := exists_cutting chars
  have ahead := readsAhead_of_cutting cutting unread text
  have ahead' := readsAhead_of_cutting cutting unread' text'
  exact ahead.alikeAt ahead' k

theorem exists_readsAhead (unread : cursor.reads = 0) (text : cursor.text = ' ' :: chars) :
    ∃ pieces last, Cutting pieces last chars ∧
      pieces.map Piece.token = Token.ofText (String.ofList chars) ∧
      cursor.ReadsAhead pieces chars := by
  obtain ⟨pieces, last, cutting⟩ := exists_cutting chars
  refine ⟨pieces, last, cutting, ?_, readsAhead_of_cutting cutting unread text⟩
  rw [ofText_eq, String.toList_ofList, cutting.ofChars_eq]

end Cursor

namespace Token

variable {p : Char → Bool} {trivia lexeme rest : List Char} {token : Token}

theorem Stops.append (h : Stops p rest) (nonempty : rest ≠ []) (more : List Char) :
    Stops p (rest ++ more) := by
  obtain ⟨c, rest, rfl⟩ := List.exists_cons_of_ne_nil nonempty
  exact h

theorem Trivia.append (h : Trivia trivia rest) (nonempty : rest ≠ []) (more : List Char) :
    Trivia trivia (rest ++ more) := by
  induction h with
  | nil rest => exact .nil _
  | blank blank _ ih => exact .blank blank (ih nonempty)
  | comment inside ends _ ih =>
    refine .comment inside ?_ (ih nonempty)
    rw [← List.append_assoc]
    exact ends.append (by simp [nonempty]) more

theorem Runs.append (h : Runs lexeme token rest) (nonempty : rest ≠ []) (more : List Char) :
    Runs lexeme token (rest ++ more) := by
  obtain ⟨blank, code, all, stops⟩ := h
  exact .intro blank code all (stops.append nonempty more)

end Token

namespace Cursor

variable {a b : Cursor} {more : List Char}

/-- A token that is read before the text ends does not depend on how the text goes on. -/
theorem next_append (left : a.next.2.text ≠ []) (text : b.text = a.text ++ more) :
    b.next.1 = a.next.1 ∧ b.next.2.text = a.next.2.text ++ more := by
  obtain ⟨pieces, last, cutting⟩ := exists_cutting a.text
  generalize whole : a.text = chars at cutting
  cases cutting with
  | last skipped => exact absurd (next_of_trivia skipped (congrArg _ whole)).2 left
  | @piece piece _ _ rest skipped munch _ =>
    rw [Piece.chars, List.append_assoc] at whole
    obtain ⟨token, behind⟩ := next_of_runs skipped munch.runs (congrArg _ whole)
    have nonempty : rest ≠ [] := behind ▸ left
    have skipped' : Trivia piece.trivia (piece.lexeme ++ (rest ++ more)) := by
      rw [← List.append_assoc]
      exact skipped.append (by simp [nonempty]) more
    have text' : b.text = piece.trivia ++ (piece.lexeme ++ (rest ++ more)) := by
      rw [text, whole, List.append_assoc, List.append_assoc]
    obtain ⟨token', behind'⟩ :=
      next_of_runs skipped' (munch.runs.append nonempty more) (congrArg _ text')
    rw [token, token', behind, behind']
    exact ⟨rfl, rfl⟩

theorem text_after_append {k : Nat} (left : (a.after k).text ≠ [])
    (text : b.text = a.text ++ more) :
    (b.after k).text = (a.after k).text ++ more := by
  induction k generalizing a b with
  | zero => exact text
  | succ k ih =>
    have started : a.next.2.text ≠ [] := fun ended => left (text_after_of_ended ended k)
    exact ih left (next_append started text).2

theorem textOf_append (answers behind : List (Option Char)) :
    textOf (answers ++ behind) = textOf answers ∨
      (textOf answers).length = answers.length ∧
        textOf (answers ++ behind) = textOf answers ++ textOf behind := by
  induction answers with
  | nil => exact .inr ⟨rfl, rfl⟩
  | cons answer answers ih =>
    cases answer with
    | none => exact .inl rfl
    | some c =>
      rcases ih with same | ⟨length, split⟩
      · exact .inl (congrArg (c :: ·) same)
      · exact .inr ⟨congrArg (· + 1) length, congrArg (c :: ·) split⟩

theorem text_ofAnswers (answers : List (Option Char)) :
    (ofAnswers answers).text = ' ' :: textOf answers := rfl

theorem alikeAt_ofAnswers_append {answers : List (Option Char)} {k : Nat}
    (asked : ((ofAnswers answers).after k).next.2.reads ≤ answers.length)
    (behind : List (Option Char)) :
    AlikeAt k (ofAnswers (answers ++ behind)) (ofAnswers answers) := by
  rcases textOf_append answers behind with same | ⟨length, split⟩
  · have text : (ofAnswers (answers ++ behind)).text = ' ' :: textOf answers := by
      rw [text_ofAnswers, same]
    exact alikeAt_of_text rfl rfl text (text_ofAnswers answers) k
  · have sum := reads_add_length_next rfl (text_ofAnswers answers) k
    have sum' := reads_add_length_next rfl (text_ofAnswers (answers ++ behind)) k
    have left : ((ofAnswers answers).after k).next.2.text ≠ [] := by
      rw [← List.length_pos_iff]
      omega
    have reached : ((ofAnswers answers).after k).text ≠ [] := fun ended =>
      left (next_of_trivia (.nil []) (congrArg _ ended)).2
    have text : (ofAnswers (answers ++ behind)).text =
        (ofAnswers answers).text ++ textOf behind := by
      rw [text_ofAnswers, text_ofAnswers, split, List.cons_append]
    obtain ⟨token, rest⟩ := next_append left (text_after_append reached text)
    refine ⟨token, ?_⟩
    rw [rest, split, List.length_append, List.length_append] at sum'
    omega

def charsOf : List ByteRead → List Char
  | .byte value :: rest => latin1 value :: charsOf rest
  | .interrupted :: rest => charsOf rest
  | _ => []

theorem text_ofReads (reads : List ByteRead) : (ofReads reads).text = ' ' :: charsOf reads := by
  have answers : textOf (ofReads reads).answers.tail = charsOf reads := by
    induction reads with
    | nil => rfl
    | cons read reads ih =>
      cases read with
      | byte value => exact congrArg (latin1 value :: ·) ih
      | interrupted => exact ih
      | failed => rfl
  exact congrArg (' ' :: ·) answers

theorem charsOf_failed (before behind : List ByteRead) :
    charsOf (before ++ .failed :: behind) = charsOf before := by
  induction before with
  | nil => rfl
  | cons read before ih =>
    cases read with
    | byte value => exact congrArg (latin1 value :: ·) ih
    | interrupted => exact ih
    | failed => rfl

theorem alikeAt_ofReads_failed (before behind : List ByteRead) (k : Nat) :
    AlikeAt k (ofReads (before ++ .failed :: behind)) (ofReads before) := by
  have text : (ofReads (before ++ .failed :: behind)).text = ' ' :: charsOf before := by
    rw [text_ofReads, charsOf_failed]
  exact alikeAt_of_text rfl rfl text (text_ofReads before) k

/--
The characters before the first end are read into their tokens, one character behind each lexeme,
whatever the source would answer behind the end. A source that has not ended yet may go on in any
way behind the answers that were asked for, and so may a byte stream behind its first failed read.
-/
theorem reads_one_ahead :
    (∀ answers, ∃ pieces last, Cutting pieces last (textOf answers) ∧
      pieces.map Piece.token = ofText (String.ofList (textOf answers)) ∧
      (ofAnswers answers).ReadsAhead pieces (textOf answers)) ∧
    (∀ reads, ∃ pieces last, Cutting pieces last (charsOf reads) ∧
      pieces.map Piece.token = ofText (String.ofList (charsOf reads)) ∧
      (ofReads reads).ReadsAhead pieces (charsOf reads)) ∧
    (∀ answers k, ((ofAnswers answers).after k).next.2.reads ≤ answers.length → ∀ behind,
      AlikeAt k (ofAnswers (answers ++ behind)) (ofAnswers answers)) ∧
    ∀ before behind k, AlikeAt k (ofReads (before ++ .failed :: behind)) (ofReads before) := by
  refine ⟨fun answers => ?_, fun reads => ?_, fun answers k asked behind => ?_,
    fun before behind k => ?_⟩
  · exact exists_readsAhead rfl (text_ofAnswers answers)
  · exact exists_readsAhead rfl (text_ofReads reads)
  · exact alikeAt_ofAnswers_append asked behind
  · exact alikeAt_ofReads_failed before behind k

theorem reads_one_ahead_unfinished :
    ((ofAnswers [some 'f', some '+']).after 0).next.2.reads ≤ 2 ∧
      ((ofAnswers [some 'f', some '+', none, some 'g']).after 0).next.1 =
        some (.identifier "f") ∧
      ((ofAnswers [some 'f', some '+', none, some 'g']).after 0).next.2.reads = 2 := by
  have asked : ((ofAnswers [some 'f', some '+']).after 0).next.2.reads ≤ 2 := by decide +kernel
  obtain ⟨token, reads⟩ := reads_one_ahead.2.2.1 _ 0 asked [none, some 'g']
  refine ⟨asked, token.trans ?_, reads.trans ?_⟩
  · decide +kernel
  · decide +kernel

end Cursor

end Formula
