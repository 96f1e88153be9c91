import Formula.Token.Basic

/-! # Reading tokens

Tokens are pulled one at a time from a character source, with one character held ahead. A source
answers each read with a character or with the end, and after an end it might go on; reading
therefore never asks again once it has seen the end. In a byte stream every byte is one character of
Latin-1; a read that was interrupted is repeated, and a failed read is the end.

A cursor stands for the characters up to the end of its source; what a source might give
behind its end is no part of them. Reading a run of characters splits this text, and
asks the source once for each character of the run.
-/

namespace Formula

inductive ByteRead where
  | byte (value : UInt8)
  | interrupted
  | failed
deriving DecidableEq

/-- A position in a character source. -/
structure Cursor where
  /-- The answer held ahead and those that the source would give next; no answer is the end. -/
  answers : List (Option Char)
  /-- How many answers the source has given. -/
  reads : Nat

namespace Cursor

/-- The start of a source: a blank stands ahead of its first answer. -/
def ofAnswers (answers : List (Option Char)) : Cursor := ⟨some ' ' :: answers, 0⟩

def ofChars (chars : List Char) : Cursor := ofAnswers (chars.map some)

def latin1 (byte : UInt8) : Char := Char.ofNat byte.toNat

def ofReads (reads : List ByteRead) : Cursor :=
  ofAnswers <| reads.filterMap fun
    | .byte value => some (some (latin1 value))
    | .interrupted => none
    | .failed => some none

def ahead (cursor : Cursor) : Option Char := cursor.answers.head?.join

/-- Replace the character held ahead by the next answer of the source. -/
def advance (cursor : Cursor) : Cursor := ⟨cursor.answers.tail, cursor.reads + 1⟩

def taken (cursor : Cursor) : Nat :=
  if cursor.ahead.isSome then cursor.reads else cursor.reads - 1

theorem length_advance_lt {cursor : Cursor} {c : Char} (h : cursor.ahead = some c) :
    cursor.advance.answers.length < cursor.answers.length := by
  rcases cursor with ⟨_ | ⟨_, _⟩, _⟩
  · simp [ahead] at h
  · simp [advance]

def takeWhile (p : Char → Bool) (cursor : Cursor) : List Char × Cursor :=
  match _h : cursor.ahead with
  | none => ([], cursor)
  | some c =>
    if p c then
      let (run, rest) := cursor.advance.takeWhile p
      (c :: run, rest)
    else ([], cursor)
termination_by cursor.answers.length
decreasing_by exact length_advance_lt _h

theorem length_takeWhile_le (p : Char → Bool) (cursor : Cursor) :
    (cursor.takeWhile p).2.answers.length ≤ cursor.answers.length := by
  fun_induction takeWhile p cursor with
  | case1 => exact Nat.le_refl _
  | case2 cursor c h _ _ _ eq ih =>
    rw [eq] at ih
    exact Nat.le_trans ih (Nat.le_of_lt (length_advance_lt h))
  | case3 => exact Nat.le_refl _

def dropWhile (p : Char → Bool) (cursor : Cursor) : Cursor := (cursor.takeWhile p).2

def isLineBreak (c : Char) : Bool := c == '\n' || c == '\r'

/-- Pass over blanks and comments; a comment runs from `#` to the end of its line. -/
def skipTrivia (cursor : Cursor) : Cursor :=
  let start := cursor.dropWhile Text.isBlank
  if _h : start.ahead = some '#' then
    (start.advance.dropWhile fun c => !isLineBreak c).skipTrivia
  else start
termination_by cursor.answers.length
decreasing_by
  exact Nat.lt_of_le_of_lt (length_takeWhile_le _ _)
    (Nat.lt_of_lt_of_le (length_advance_lt _h) (length_takeWhile_le _ _))

theorem length_skipTrivia_le (cursor : Cursor) :
    cursor.skipTrivia.answers.length ≤ cursor.answers.length := by
  fun_induction skipTrivia cursor with
  | case1 cursor start h ih =>
    exact Nat.le_trans ih (Nat.le_trans (length_takeWhile_le _ _)
      (Nat.le_trans (Nat.le_of_lt (length_advance_lt h)) (length_takeWhile_le _ _)))
  | case2 => exact length_takeWhile_le _ _

/-- Read the token that begins with the character held ahead. -/
def readToken (cursor : Cursor) (c : Char) : Token × Cursor :=
  if c.isAlpha then
    let (word, rest) := cursor.takeWhile Char.isAlphanum
    (Token.ofWord word, rest)
  else if Numeral.isPart c then
    let (run, rest) := cursor.takeWhile Numeral.isPart
    (.number (Numeral.value run), rest)
  else (.symbol c, cursor.advance)

def next (cursor : Cursor) : Option Token × Cursor :=
  let start := cursor.skipTrivia
  match start.ahead with
  | none => (none, start)
  | some c =>
    let (token, rest) := start.readToken c
    (some token, rest)

theorem length_takeWhile_lt {p : Char → Bool} {cursor : Cursor} {c : Char}
    (h : cursor.ahead = some c) (hp : p c = true) :
    (cursor.takeWhile p).2.answers.length < cursor.answers.length := by
  rw [takeWhile]
  split
  next none => simp [none] at h
  next d some =>
    obtain rfl : d = c := Option.some.inj (some.symm.trans h)
    rw [if_pos hp]
    exact Nat.lt_of_le_of_lt (length_takeWhile_le _ _) (length_advance_lt h)

theorem length_readToken_lt {cursor : Cursor} {c : Char} (h : cursor.ahead = some c) :
    (cursor.readToken c).2.answers.length < cursor.answers.length := by
  unfold readToken
  split
  next alpha => exact length_takeWhile_lt h (by simp [Char.isAlphanum, alpha])
  next =>
    split
    next part => exact length_takeWhile_lt h part
    next => exact length_advance_lt h

/-- All tokens up to the end. -/
def tokens (cursor : Cursor) : List Token :=
  match _h : cursor.skipTrivia.ahead with
  | none => []
  | some c =>
    let step := cursor.skipTrivia.readToken c
    step.1 :: step.2.tokens
termination_by cursor.answers.length
decreasing_by
  exact Nat.lt_of_lt_of_le (length_readToken_lt _h) (length_skipTrivia_le cursor)

end Cursor

def Token.ofText (text : String) : List Token := (Cursor.ofChars text.toList).tokens

namespace Cursor

/-- The characters before the first end among the answers of a source. -/
def textOf : List (Option Char) → List Char
  | some c :: rest => c :: textOf rest
  | _ => []

def text (cursor : Cursor) : List Char := textOf cursor.answers

theorem textOf_map_some (chars : List Char) : textOf (chars.map some) = chars := by
  induction chars with
  | nil => rfl
  | cons c rest ih => simp [textOf, ih]

theorem text_ofChars (chars : List Char) : (ofChars chars).text = ' ' :: chars := by
  simp [text, ofChars, ofAnswers, textOf, textOf_map_some]

theorem ahead_eq (cursor : Cursor) : cursor.ahead = cursor.text.head? := by
  rcases cursor with ⟨_ | ⟨_ | _, _⟩, _⟩ <;> rfl

theorem text_of_ahead {cursor : Cursor} {c : Char} (h : cursor.ahead = some c) :
    cursor.text = c :: cursor.advance.text := by
  rcases cursor with ⟨_ | ⟨_ | _, _⟩, _⟩ <;> simp_all [ahead, text, textOf, advance]

theorem text_of_ahead_none {cursor : Cursor} (h : cursor.ahead = none) : cursor.text = [] := by
  simpa [ahead_eq] using h

theorem takeWhile_run (p : Char → Bool) (cursor : Cursor) :
    (cursor.takeWhile p).1 = cursor.text.takeWhile p := by
  fun_induction takeWhile p cursor with
  | case1 cursor h => simp [text_of_ahead_none h]
  | case2 cursor c h hp run rest eq ih =>
    rw [text_of_ahead h, List.takeWhile_cons_of_pos hp, ← ih, eq]
  | case3 cursor c h hp => rw [text_of_ahead h, List.takeWhile_cons_of_neg hp]

theorem text_takeWhile (p : Char → Bool) (cursor : Cursor) :
    (cursor.takeWhile p).2.text = cursor.text.dropWhile p := by
  fun_induction takeWhile p cursor with
  | case1 cursor h => simp [text_of_ahead_none h]
  | case2 cursor c h hp run rest eq ih =>
    rw [text_of_ahead h, List.dropWhile_cons_of_pos hp, ← ih, eq]
  | case3 cursor c h hp => rw [text_of_ahead h, List.dropWhile_cons_of_neg hp]

theorem reads_takeWhile (p : Char → Bool) (cursor : Cursor) :
    (cursor.takeWhile p).2.reads = cursor.reads + (cursor.text.takeWhile p).length := by
  fun_induction takeWhile p cursor with
  | case1 cursor h => simp [text_of_ahead_none h]
  | case2 cursor c h hp run rest eq ih =>
    have advanced : cursor.advance.reads = cursor.reads + 1 := rfl
    rw [eq] at ih
    rw [text_of_ahead h, List.takeWhile_cons_of_pos hp, List.length_cons, ih, advanced]
    omega
  | case3 cursor c h hp => simp [text_of_ahead h, List.takeWhile_cons_of_neg hp]

end Cursor

end Formula
