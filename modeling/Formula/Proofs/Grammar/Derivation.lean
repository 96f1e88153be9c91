import Formula.Proofs.Grammar.Folding

/-! # The grammar

A phrase is derived from its tokens and from the token that follows them: a name is a
reference only if no parenthesis follows, and an expression ends only where no operator
follows. Where nothing follows, the input ends.
-/

namespace Formula

/-- What a part of an expression is derived as. -/
inductive Phrase where
  | primary (e : Expr)
  /-- Operators with the operands behind them. -/
  | operations (ops : List (Char × Expr))
  | expression (e : Expr)
  /-- One or more arguments, with commas between them. -/
  | arguments (args : List Expr)

namespace OperatorTable

/-- The tokens form the phrase, if the given token follows them. -/
inductive Derives (table : OperatorTable) : Phrase → List Token → Option Token → Prop where
  | number (value : Binary64) (next : Option Token) :
    Derives table (.primary (.number value)) [.number value] next
  | reference (name : String) {next : Option Token} : next ≠ some (.symbol '(') →
    Derives table (.primary (.reference name)) [.identifier name] next
  | callEmpty (callee : String) (next : Option Token) :
    Derives table (.primary (.call callee []))
      [.identifier callee, .symbol '(', .symbol ')'] next
  | call (callee : String) (next : Option Token) {args : List Expr} {tokens : List Token} :
    Derives table (.arguments args) tokens (some (.symbol ')')) →
    Derives table (.primary (.call callee args))
      (.identifier callee :: .symbol '(' :: (tokens ++ [.symbol ')'])) next
  | parenthesized (next : Option Token) {e : Expr} {tokens : List Token} :
    Derives table (.expression e) tokens (some (.symbol ')')) →
    Derives table (.primary e) (.symbol '(' :: (tokens ++ [.symbol ')'])) next
  | noOperation (next : Option Token) : Derives table (.operations []) [] next
  | operation {op : Char} {operand : Expr} {ops : List (Char × Expr)} {tokens more : List Token}
      {next : Option Token} : table.isOperator op = true →
    Derives table (.primary operand) tokens (more.head?.or next) →
    Derives table (.operations ops) more next →
    Derives table (.operations ((op, operand) :: ops)) (.symbol op :: (tokens ++ more)) next
  | expression {first e : Expr} {ops : List (Char × Expr)} {tokens more : List Token}
      {next : Option Token} : Derives table (.primary first) tokens (more.head?.or next) →
    Derives table (.operations ops) more next → ¬ table.Continues next →
    table.Folds first ops e → Derives table (.expression e) (tokens ++ more) next
  | lastArgument {arg : Expr} {tokens : List Token} {next : Option Token} :
    Derives table (.expression arg) tokens next → Derives table (.arguments [arg]) tokens next
  | argument {arg : Expr} {args : List Expr} {tokens more : List Token} {next : Option Token} :
    Derives table (.expression arg) tokens (some (.symbol ',')) →
    Derives table (.arguments args) more next →
    Derives table (.arguments (arg :: args)) (tokens ++ .symbol ',' :: more) next

end OperatorTable

def Prototype.tokens (p : Prototype) : List Token :=
  .identifier p.name :: .symbol '(' :: (p.args.map .identifier ++ [.symbol ')'])

inductive Construct.Derives (table : OperatorTable) :
    Construct → List Token → Option Token → Prop where
  | external (p : Prototype) (next : Option Token) :
    Derives table (.external p) (.external :: p.tokens) next
  | definition (p : Prototype) {body : Expr} {tokens : List Token} {next : Option Token} :
    table.Derives (.expression body) tokens next →
    Derives table (.definition ⟨p, body⟩) (.define :: (p.tokens ++ tokens)) next
  | expression {e : Expr} {tokens : List Token} {next : Option Token} :
    table.Derives (.expression e) tokens next → Derives table (.expression e) tokens next

/-- The tokens form the constructs one after another, with any semicolons before and behind them. -/
inductive OperatorTable.Program (table : OperatorTable) :
    List Construct → List Token → Prop where
  | nil : Program table [] []
  | separator {constructs : List Construct} {tokens : List Token} :
    Program table constructs tokens → Program table constructs (.symbol ';' :: tokens)
  | construct {c : Construct} {constructs : List Construct} {tokens more : List Token} :
    c.Derives table tokens more.head? → Program table constructs more →
    Program table (c :: constructs) (tokens ++ more)

def Token.isWord : Token → Bool
  | symbol _ => false
  | _ => true

namespace Expr

mutual

def words : Expr → List Token
  | number value => [.number value]
  | reference name => [.identifier name]
  | binary _ lhs rhs => lhs.words ++ rhs.words
  | call callee args => .identifier callee :: listWords args

def listWords : List Expr → List Token
  | [] => []
  | e :: rest => e.words ++ listWords rest

end

end Expr

def Prototype.words (p : Prototype) : List Token := .identifier p.name :: p.args.map .identifier

def Construct.words : Construct → List Token
  | external p => .external :: p.words
  | definition d => .define :: (d.prototype.words ++ d.body.words)
  | expression e => e.words

def Phrase.words : Phrase → List Token
  | primary e => e.words
  | operations ops => ops.flatMap (·.2.words)
  | expression e => e.words
  | arguments args => Expr.listWords args

namespace OperatorTable

variable {table : OperatorTable} {tokens : List Token} {next : Option Token}

theorem Folds.words_eq {first e : Expr} {ops : List (Char × Expr)} (h : table.Folds first ops e) :
    e.words = first.words ++ ops.flatMap (·.2.words) := by
  induction h with
  | operand => simp
  | root _ _ _ _ ihl ihr => simp [Expr.words, ihl, ihr]

theorem Derives.words_eq {phrase : Phrase} (h : table.Derives phrase tokens next) :
    phrase.words = tokens.filter Token.isWord := by
  induction h with
  | number | reference => simp [Phrase.words, Expr.words, List.filter_cons, Token.isWord]
  | callEmpty => simp [Phrase.words, Expr.words, Expr.listWords, List.filter_cons, Token.isWord]
  | call callee next _ ih =>
    simpa [Phrase.words, Expr.words, List.filter_cons, Token.isWord] using ih
  | parenthesized next _ ih => simpa [Phrase.words, List.filter_cons, Token.isWord] using ih
  | noOperation => rfl
  | operation _ _ _ ih ih' => simp_all [Phrase.words, Token.isWord]
  | expression _ _ _ folds ih ih' => simp_all [Phrase.words, folds.words_eq]
  | lastArgument _ ih => simpa [Phrase.words, Expr.listWords] using ih
  | argument _ _ ih ih' => simp_all [Phrase.words, Expr.listWords, Token.isWord]

end OperatorTable

theorem Prototype.words_eq (p : Prototype) : p.words = p.tokens.filter Token.isWord := by
  have names : (p.args.map Token.identifier).filter Token.isWord = p.args.map .identifier := by
    rw [List.filter_eq_self]
    simp [Token.isWord]
  simp [words, tokens, List.filter_cons, Token.isWord, names]

theorem Construct.Derives.words_eq {table : OperatorTable} {c : Construct} {tokens : List Token}
    {next : Option Token} (h : c.Derives table tokens next) :
    c.words = tokens.filter Token.isWord := by
  cases h with
  | external p => simp [words, p.words_eq, List.filter_cons, Token.isWord]
  | definition p body =>
    simp [words, p.words_eq, ← body.words_eq, Phrase.words, List.filter_cons, Token.isWord]
  | expression e => simpa [words, Phrase.words] using e.words_eq

theorem OperatorTable.Program.words_eq {table : OperatorTable} {constructs : List Construct}
    {tokens : List Token} (h : table.Program constructs tokens) :
    constructs.flatMap Construct.words = tokens.filter Token.isWord := by
  induction h with
  | nil => rfl
  | separator _ ih => simpa [List.filter_cons, Token.isWord] using ih
  | construct c _ ih => simp [ih, c.words_eq]

end Formula
