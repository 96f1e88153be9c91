import Formula.Proofs.Binary64.ReadBack
import Formula.Proofs.Grammar.Derivation
import Formula.Proofs.Token.Spelling

/-! # Printed constructs

The text of an expression is read as one parenthesis, comma, operator, name or number
after another. Behind every name and every number stands a character that cannot belong
to it, so none of them runs into the next one.
-/

namespace Formula

namespace Token

/-- The characters are read as the tokens, whatever follows that does not go on with them. -/
def Spells (chars : List Char) (tokens : List Token) : Prop :=
  ∀ rest, Breaks rest → ofChars (chars ++ rest) = tokens ++ ofChars rest

variable {a b : List Char} {s t : List Token} {c : Char}

theorem Breaks.append (h : Breaks a) (h' : Breaks b) : Breaks (a ++ b) := by
  cases a with
  | nil => exact h'
  | cons c a => exact h

theorem breaks_cons (h : Text.isBlank c = true ∨ isSymbolic c = true) (rest : List Char) :
    Breaks (c :: rest) := by
  rintro _ ⟨⟩
  have word := @not_isBlank c
  simp only [isSymbolic, Numeral.isPart, Char.isAlphanum] at *
  grind

theorem spells_nil : Spells [] [] := fun _ _ => rfl

theorem Lexeme.spells {token : Token} (h : Lexeme a token) : Spells a [token] :=
  fun _ breaks => h.read breaks

theorem Spells.append (h : Spells a s) (h' : Spells b t) (separate : Breaks b) :
    Spells (a ++ b) (s ++ t) := by
  intro rest breaks
  rw [List.append_assoc, h _ (separate.append breaks), h' rest breaks, List.append_assoc]

theorem Spells.blank (h : Spells a s) : Spells (' ' :: a) s := by
  intro rest breaks
  rw [List.cons_append, ofChars_blank (by decide), h rest breaks]

theorem Spells.symbol (symbolic : isSymbolic c = true) (h : Spells a s) :
    Spells (c :: a) (.symbol c :: s) := by
  intro rest breaks
  rw [List.cons_append, ofChars_symbol symbolic, h rest breaks, List.cons_append]

theorem Spells.append_blank (h : Spells a s) (h' : Spells b t) :
    Spells (a ++ ' ' :: b) (s ++ t) :=
  h.append h'.blank (breaks_cons (.inl (by decide)) b)

theorem Spells.append_symbol (h : Spells a s) (symbolic : isSymbolic c = true)
    (h' : Spells b t) : Spells (a ++ c :: b) (s ++ .symbol c :: t) :=
  h.append (h'.symbol symbolic) (breaks_cons (.inr symbolic) b)

theorem Spells.parenthesized (h : Spells a s) :
    Spells ('(' :: (a ++ [')'])) (.symbol '(' :: (s ++ [.symbol ')'])) := by
  apply Spells.symbol (by decide)
  exact h.append_symbol (by decide) spells_nil

theorem Spells.intercalate {α : Type} {more : List Char} {mark : List Token}
    {text : α → List Char} {tokens : α → List Token}
    (breaks : Text.isBlank c = true ∨ isSymbolic c = true)
    (reads : ∀ {a s}, Spells a s → Spells (c :: more ++ a) (mark ++ s)) {items : List α}
    (h : ∀ x ∈ items, Spells (text x) (tokens x)) :
    Spells ((c :: more).intercalate (items.map text)) (mark.intercalate (items.map tokens)) := by
  induction items with
  | nil => exact spells_nil
  | cons x items ih =>
    have first := h x List.mem_cons_self
    have later := ih fun y hy => h y (List.mem_cons_of_mem _ hy)
    cases items with
    | nil => simpa using first
    | cons y items =>
      simp only [List.map_cons, List.intercalate_cons_cons, List.append_assoc] at later ⊢
      exact first.append (reads later) (breaks_cons breaks _)

end Token

open Token

theorem IsName.lexeme {name : String} (h : IsName name) :
    Lexeme name.toList (.identifier name) := by
  obtain ⟨c, rest, spelled, alpha⟩ := h.begins
  rw [← h.ofWord_eq, spelled]
  apply Lexeme.word alpha
  intro d hd
  exact h.alphanumeric d (spelled ▸ List.mem_cons_of_mem c hd)

theorem IsName.spells_applied {name : String} (h : IsName name) {a : List Char} {s : List Token}
    (inner : Spells a s) : Spells (name.toList ++ '(' :: (a ++ [')']))
      (.identifier name :: .symbol '(' :: (s ++ [.symbol ')'])) :=
  h.lexeme.spells.append inner.parenthesized (breaks_cons (.inr (by decide)) _)

namespace Expr

mutual

def tokens : Expr → List Token
  | number value => [.number value]
  | reference name => [.identifier name]
  | binary op lhs rhs =>
    .symbol '(' :: (lhs.tokens ++ .symbol op :: (rhs.tokens ++ [.symbol ')']))
  | call callee args =>
    .identifier callee :: .symbol '(' ::
      ([.symbol ','].intercalate (listTokens args) ++ [.symbol ')'])

def listTokens : List Expr → List (List Token)
  | [] => []
  | e :: rest => e.tokens :: listTokens rest

end

theorem listToTexts_eq (args : List Expr) : listToTexts args = args.map toText := by
  induction args with
  | nil => rfl
  | cons arg args ih => rw [listToTexts, ih, List.map_cons]

theorem listTokens_eq (args : List Expr) : listTokens args = args.map tokens := by
  induction args with
  | nil => rfl
  | cons arg args ih => rw [listTokens, ih, List.map_cons]

/--
An expression that a source can spell: its numbers are finite and have no sign, and its operators
are symbols of the table other than the opening parenthesis.
-/
inductive Printable (table : OperatorTable) : Expr → Prop where
  | number {value : Binary64} : value.isFinite = true → value.isNegative = false →
    Printable table (.number value)
  | reference {name : String} : IsName name → Printable table (.reference name)
  | binary {op : Char} {lhs rhs : Expr} : table.isOperator op = true → isSymbolic op = true →
    op ≠ '(' → Printable table lhs → Printable table rhs → Printable table (.binary op lhs rhs)
  | call {callee : String} {args : List Expr} : IsName callee →
    (∀ arg ∈ args, Printable table arg) → Printable table (.call callee args)

end Expr

variable {table : OperatorTable}

theorem Expr.Printable.spells {e : Expr} (h : e.Printable table) :
    Spells e.toText.toList e.tokens := by
  induction h with
  | number finite positive => exact (Binary64.lexeme_toText finite positive).spells
  | reference name => exact name.lexeme.spells
  | @binary op lhs rhs _ symbolic _ _ _ ihl ihr =>
    have operation := ihl.append_blank (ihr.blank.symbol symbolic)
    simpa [toText, tokens] using operation.parenthesized
  | @call callee args name _ ih =>
    have separated : Spells ([',', ' '].intercalate (args.map (·.toText.toList)))
        ([.symbol ','].intercalate (args.map tokens)) := by
      apply Spells.intercalate (by decide) _ ih
      intro a s reads
      exact reads.blank.symbol (by decide)
    simpa [toText, tokens, listToTexts_eq, listTokens_eq, Function.comp_def] using
      name.spells_applied separated

structure Prototype.Printable (p : Prototype) : Prop where
  name : IsName p.name
  args : ∀ arg ∈ p.args, IsName arg

theorem intercalate_singletons {α β : Type} (f : α → β) (items : List α) :
    List.intercalate [] (items.map fun x => [f x]) = items.map f := by
  induction items with
  | nil => rfl
  | cons x items ih =>
    cases items with
    | nil => simp
    | cons y items =>
      simp only [List.map_cons, List.intercalate_cons_cons] at ih ⊢
      rw [ih, List.append_nil, List.singleton_append]

theorem Prototype.Printable.spells {p : Prototype} (h : p.Printable) :
    Spells p.toText.toList p.tokens := by
  have args : Spells ([' '].intercalate (p.args.map String.toList))
      (List.intercalate [] (p.args.map fun arg => [.identifier arg])) := by
    apply Spells.intercalate (by decide)
    · intro a s reads
      exact reads.blank
    · intro arg mem
      exact (h.args arg mem).lexeme.spells
  simpa [toText, tokens, intercalate_singletons] using h.name.spells_applied args

namespace Construct

def toText : Construct → String
  | external p => "extern " ++ p.toText
  | definition d => "def " ++ d.prototype.toText ++ " " ++ d.body.toText
  | expression e => e.toText

def tokens : Construct → List Token
  | external p => .external :: p.tokens
  | definition d => .define :: (d.prototype.tokens ++ d.body.tokens)
  | expression e => e.tokens

inductive Printable (table : OperatorTable) : Construct → Prop where
  | external {p : Prototype} : p.Printable → Printable table (.external p)
  | definition {p : Prototype} {body : Expr} : p.Printable → body.Printable table →
    Printable table (.definition ⟨p, body⟩)
  | expression {e : Expr} : e.Printable table → Printable table (.expression e)

theorem Printable.spells {c : Construct} (h : c.Printable table) :
    Spells c.toText.toList c.tokens := by
  cases h with
  | external p =>
    have keyword : Lexeme "extern".toList .external := .word (by decide) (List.all_eq_true.mp rfl)
    simpa [toText, tokens] using keyword.spells.append_blank p.spells
  | definition p body =>
    have keyword : Lexeme "def".toList .define := .word (by decide) (List.all_eq_true.mp rfl)
    simpa [toText, tokens] using keyword.spells.append_blank (p.spells.append_blank body.spells)
  | expression e => exact e.spells

end Construct

/-- The text of a list of constructs is read as their tokens, with semicolons between them. -/
theorem ofText_toTexts {constructs : List Construct} (h : ∀ c ∈ constructs, c.Printable table) :
    ofText (String.intercalate ";" (constructs.map Construct.toText)) =
      [.symbol ';'].intercalate (constructs.map Construct.tokens) := by
  have spelled : Spells ([';'].intercalate (constructs.map (·.toText.toList)))
      ([.symbol ';'].intercalate (constructs.map Construct.tokens)) := by
    apply Spells.intercalate (by decide)
    · intro a s reads
      exact reads.symbol (by decide)
    · intro c mem
      exact (h c mem).spells
  have read := spelled [] breaks_nil
  simpa [ofText_eq, ofChars_nil, Function.comp_def] using read

end Formula
