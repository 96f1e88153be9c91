import Formula.Proofs.Grammar.Printed
import Formula.Proofs.Token.Segmentation

/-! # Tokens with anything between them

A source may have any blanks and comments before and behind its tokens, and must have some
between two of them. A comment may hold any characters up to the end of its line, and the last
one may go on to the end of the source. However the tokens are spaced, they are read back.
-/

namespace Formula.Token

inductive Writable : Token → Prop where
  | define : Writable .define
  | external : Writable .external
  | identifier {name : String} : IsName name → Writable (.identifier name)
  | number {value : Binary64} : value.isFinite = true → value.isNegative = false →
    Writable (.number value)
  | symbol {c : Char} : isSymbolic c = true → Writable (.symbol c)

def spelling : Token → List Char
  | define => ['d', 'e', 'f']
  | external => ['e', 'x', 't', 'e', 'r', 'n']
  | identifier name => name.toList
  | number value => value.toText.toList
  | symbol c => [c]

/-- Blanks and comments, each comment with the line break that ends it. -/
inductive Gap : List Char → Prop where
  | nil : Gap []
  | blank {c : Char} {gap : List Char} : Text.isBlank c = true → Gap gap → Gap (c :: gap)
  | comment {line gap : List Char} {c : Char} : (∀ d ∈ line, Cursor.isLineBreak d = false) →
    Cursor.isLineBreak c = true → Gap gap → Gap ('#' :: (line ++ c :: gap))

/-- Blanks and comments at the end of a source, where a comment needs no line break. -/
inductive Ending : List Char → Prop where
  | gap {gap : List Char} : Gap gap → Ending gap
  | comment {gap line : List Char} : Gap gap → (∀ c ∈ line, Cursor.isLineBreak c = false) →
    Ending (gap ++ '#' :: line)

/-- The text of tokens, given with what stands before each of them and behind the last one. -/
def written (pieces : List (List Char × Token)) (ending : List Char) : List Char :=
  pieces.flatMap (fun piece => piece.1 ++ piece.2.spelling) ++ ending

structure Spaced (pieces : List (List Char × Token)) (ending : List Char) : Prop where
  writable : ∀ piece ∈ pieces, piece.2.Writable
  gap : ∀ piece ∈ pieces, Gap piece.1
  apart : ∀ piece ∈ pieces.tail, piece.1 ≠ []
  ending : Ending ending

variable {pieces : List (List Char × Token)} {gap ending rest : List Char} {token : Token}

theorem Writable.lexeme (h : token.Writable) : Lexeme token.spelling token := by
  cases h with
  | define => exact .word (by decide) (List.all_eq_true.mp rfl)
  | external => exact .word (by decide) (List.all_eq_true.mp rfl)
  | identifier name => exact name.lexeme
  | number finite positive => exact Binary64.lexeme_toText finite positive
  | symbol symbolic => exact .symbol symbolic

theorem isBlank_of_isLineBreak {c : Char} (h : Cursor.isLineBreak c = true) :
    Text.isBlank c = true := by
  simp only [Cursor.isLineBreak, Bool.or_eq_true, beq_iff_eq] at h
  rcases h with rfl | rfl <;> decide

theorem Gap.trivia (h : Gap gap) (rest : List Char) : Trivia gap rest := by
  induction h with
  | nil => exact .nil rest
  | blank blank _ ih => exact .blank blank ih
  | comment inside break_ _ ih =>
    apply Trivia.comment (by simpa using inside) _ (.blank (isBlank_of_isLineBreak break_) ih)
    rintro _ ⟨⟩
    simpa using break_

theorem breaks_hash (rest : List Char) : Breaks ('#' :: rest) := by
  rintro _ ⟨⟩
  decide

theorem Gap.breaks (h : Gap gap) (separate : gap = [] → Breaks rest) : Breaks (gap ++ rest) := by
  cases h with
  | nil => exact separate rfl
  | blank blank _ => exact breaks_cons (.inl blank) _
  | comment => exact breaks_hash _

theorem Ending.breaks (h : Ending ending) : Breaks ending := by
  cases h with
  | gap h => simpa using h.breaks fun _ => breaks_nil
  | comment h _ => exact h.breaks fun _ => breaks_hash _

theorem Ending.read (h : Ending ending) : ofChars ending = [] := by
  cases h with
  | gap h => simpa [ofChars_nil] using (h.trivia []).read
  | @comment gap line h inside =>
    have all : ∀ c ∈ line, (!Cursor.isLineBreak c) = true := by simpa using inside
    have last : Trivia ('#' :: (line ++ [])) [] := .comment all nofun (.nil [])
    rw [(h.trivia _).read, ← line.append_nil, ← List.append_nil (_ :: _), last.read, ofChars_nil]

variable {piece : List Char × Token}

theorem written_cons (piece : List Char × Token) (pieces : List (List Char × Token))
    (ending : List Char) : written (piece :: pieces) ending =
      piece.1 ++ (piece.2.spelling ++ written pieces ending) := by
  simp [written]

theorem Spaced.tail (h : Spaced (piece :: pieces) ending) : Spaced pieces ending where
  writable other mem := h.writable other (List.mem_cons_of_mem piece mem)
  gap other mem := h.gap other (List.mem_cons_of_mem piece mem)
  apart other mem := h.apart other (List.mem_of_mem_tail mem)
  ending := h.ending

theorem Spaced.breaks (h : Spaced (piece :: pieces) ending) : Breaks (written pieces ending) := by
  cases pieces with
  | nil => exact h.ending.breaks
  | cons next pieces =>
    have gap := h.gap next (List.mem_cons_of_mem piece List.mem_cons_self)
    rw [written_cons]
    exact gap.breaks fun empty => absurd empty (h.apart next List.mem_cons_self)

theorem Spaced.read (h : Spaced pieces ending) :
    ofChars (written pieces ending) = pieces.map (·.2) := by
  induction pieces with
  | nil => exact h.ending.read
  | cons piece pieces ih =>
    have gap := h.gap piece List.mem_cons_self
    have lexeme := (h.writable piece List.mem_cons_self).lexeme
    rw [written_cons, (gap.trivia _).read, lexeme.read h.breaks, ih h.tail, List.map_cons]

/-- However tokens are spaced in a text, they are the tokens of the text. -/
theorem ofText_written (h : Spaced pieces ending) :
    ofText (String.ofList (written pieces ending)) = pieces.map (·.2) := by
  rw [ofText_eq, String.toList_ofList]
  exact h.read

/-- A carriage return ends a comment, a tabulator does not. -/
theorem ofText_written_comments :
    ofText "#\"1\rdef #2\tx\nf\x0b( 0.5#(\r;#end" =
      [.define, .identifier "f", .symbol '(', .number ⟨0x3FE0000000000000⟩, .symbol ';'] := by
  have quoted : Gap ['#', '"', '1', '\r'] :=
    @Gap.comment ['"', '1'] [] '\r' (by simp [Cursor.isLineBreak]) (by decide) .nil
  have tabulated : Gap [' ', '#', '2', '\t', 'x', '\n'] :=
    .blank (by decide)
      (@Gap.comment ['2', '\t', 'x'] [] '\n' (by simp [Cursor.isLineBreak]) (by decide) .nil)
  have opening : Gap ['#', '(', '\r'] :=
    @Gap.comment ['('] [] '\r' (by simp [Cursor.isLineBreak]) (by decide) .nil
  have last : Ending ['#', 'e', 'n', 'd'] :=
    @Ending.comment [] ['e', 'n', 'd'] .nil (by simp [Cursor.isLineBreak])
  have h : Spaced [(['#', '"', '1', '\r'], .define),
      ([' ', '#', '2', '\t', 'x', '\n'], .identifier "f"), (['\x0b'], .symbol '('),
      ([' '], .number ⟨0x3FE0000000000000⟩), (['#', '(', '\r'], .symbol ';')]
      ['#', 'e', 'n', 'd'] := by
    constructor
    · simp only [List.forall_mem_cons, List.not_mem_nil, false_implies, implies_true, and_true]
      exact ⟨.define, .identifier (by decide), .symbol (by decide),
        .number (by decide) (by decide), .symbol (by decide)⟩
    · simp only [List.forall_mem_cons, List.not_mem_nil, false_implies, implies_true, and_true]
      exact ⟨quoted, tabulated, .blank (by decide) .nil, .blank (by decide) .nil, opening⟩
    · simp
    · exact last
  exact (congrArg ofText (by decide +kernel)).trans (ofText_written h)

end Formula.Token
