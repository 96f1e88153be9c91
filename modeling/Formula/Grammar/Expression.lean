import Formula.Syntax.Basic
import Formula.Grammar.Parsed
import Formula.Operator.Table

/-! # Reading expressions

An expression is a primary followed by operators and further primaries. Operators are
folded by precedence climbing: a bound says how tightly an operator must bind to be
folded, and an operand takes the operators that bind tighter than the one before it.
-/

namespace Formula

def OperatorTable.nextStrength (table : OperatorTable) : List Token → Int32
  | .symbol op :: _ => table.strength op
  | _ => notAnOperator

namespace Expr

variable (table : OperatorTable)

mutual

/-- Read a number, a name, a call or a parenthesized expression. -/
def primaryWithin (tokens : List Token) : Parsed.Within tokens.length Expr :=
  match tokens with
  | .number value :: rest => ⟨.ok (.number value) rest, by simp⟩
  | .identifier name :: rest =>
    match ho : Token.after? '(' rest with
    | none => ⟨.ok (.reference name) rest, by simp⟩
    | some inner =>
      have := congrArg List.length (Token.after?_eq_some.mp ho)
      match hc : Token.after? ')' inner with
      | some outer =>
        have := congrArg List.length (Token.after?_eq_some.mp hc)
        ⟨.ok (.call name []) outer, by simp_all; omega⟩
      | none =>
        match argumentsWithin inner with
        | ⟨.ok args outer, h⟩ => ⟨.ok (.call name args) outer, by simp_all; omega⟩
        | ⟨.error cause left, h⟩ => ⟨.error cause left, by simp_all; omega⟩
  | .symbol c :: inner =>
    if c = '(' then
      match expressionWithin inner with
      | ⟨.ok e left, h⟩ =>
        match hc : Token.after? ')' left with
        | some outer =>
          have := congrArg List.length (Token.after?_eq_some.mp hc)
          ⟨.ok e outer, by simp_all; omega⟩
        | none => ⟨.error (.expected ')' .closeParenthesis left.head?) left, by simp_all; omega⟩
      | ⟨.error cause left, h⟩ => ⟨.error cause left, by simp_all; omega⟩
    else ⟨.error (.unexpected (some (.symbol c))) (.symbol c :: inner), by simp⟩
  | tokens => ⟨.error (.unexpected tokens.head?) tokens, by simp⟩
termination_by 4 * tokens.length
decreasing_by all_goals (simp only [List.length_cons] at *; omega)

def argumentsWithin (tokens : List Token) : Parsed.Within tokens.length (List Expr) :=
  match expressionWithin tokens with
  | ⟨.error cause left, h⟩ => ⟨.error cause left, h⟩
  | ⟨.ok arg left, h⟩ =>
    match hc : Token.after? ')' left with
    | some outer =>
      have := congrArg List.length (Token.after?_eq_some.mp hc)
      ⟨.ok [arg] outer, by simp_all; omega⟩
    | none =>
      match hs : Token.after? ',' left with
      | some next =>
        have := congrArg List.length (Token.after?_eq_some.mp hs)
        match argumentsWithin next with
        | ⟨.ok args outer, h'⟩ => ⟨.ok (arg :: args) outer, by simp_all; omega⟩
        | ⟨.error cause left, h'⟩ => ⟨.error cause left, by simp_all; omega⟩
      | none => ⟨.error (.badSeparator left.head?) left, h⟩
termination_by 4 * tokens.length + 3
decreasing_by
  · omega
  · simp only [Outcome.state_ok, List.length_cons] at *
    omega

/-- Fold operators that bind at least as tightly as `bound` into the expression before them. -/
def operatorsWithin (bound : Int32) (lhs : Expr) (tokens : List Token) :
    Parsed.Within tokens.length Expr :=
  match tokens with
  | .symbol op :: rest =>
    if bound ≤ table.strength op then
      match primaryWithin rest with
      | ⟨.error cause left, h⟩ => ⟨.error cause left, by simp_all; omega⟩
      | ⟨.ok operand left, h⟩ =>
        if table.strength op < table.nextStrength left then
          match operatorsWithin (table.strength op + 1) operand left with
          | ⟨.error cause left', h'⟩ => ⟨.error cause left', by simp_all; omega⟩
          | ⟨.ok operand' left', h'⟩ =>
            have ⟨parsed, h''⟩ := operatorsWithin bound (.binary op lhs operand') left'
            ⟨parsed, by simp_all; omega⟩
        else
          have ⟨parsed, h'⟩ := operatorsWithin bound (.binary op lhs operand) left
          ⟨parsed, by simp_all; omega⟩
    else ⟨.ok lhs (.symbol op :: rest), by simp⟩
  | tokens => ⟨.ok lhs tokens, by simp⟩
termination_by 4 * tokens.length + 1
decreasing_by all_goals (simp only [Outcome.state_ok, List.length_cons] at *; omega)

def expressionWithin (tokens : List Token) : Parsed.Within tokens.length Expr :=
  match primaryWithin tokens with
  | ⟨.error cause left, h⟩ => ⟨.error cause left, h⟩
  | ⟨.ok first left, h⟩ =>
    have ⟨parsed, h'⟩ := operatorsWithin 0 first left
    ⟨parsed, Nat.le_trans h' h⟩
termination_by 4 * tokens.length + 2
decreasing_by
  · omega
  · simp only [Outcome.state_ok] at *
    omega

end

def parse (tokens : List Token) : Parsed Expr := (expressionWithin table tokens).1

def parsePrimary (tokens : List Token) : Parsed Expr := (primaryWithin table tokens).1

def parseArguments (tokens : List Token) : Parsed (List Expr) := (argumentsWithin table tokens).1

/-- Fold operators that bind at least as tightly as `bound` into the expression before them. -/
def parseOperators (bound : Int32) (lhs : Expr) (tokens : List Token) : Parsed Expr :=
  (operatorsWithin table bound lhs tokens).1

theorem parse_eq (tokens : List Token) :
    parse table tokens = (parsePrimary table tokens).andThen (parseOperators table 0) := by
  rw [parse, expressionWithin]
  split <;> simp_all [parsePrimary, Outcome.andThen, parseOperators]

@[simp] theorem parsePrimary_number (value : Binary64) (rest : List Token) :
    parsePrimary table (.number value :: rest) = .ok (.number value) rest := by
  rw [parsePrimary, primaryWithin]

theorem parsePrimary_identifier (name : String) (rest : List Token) :
    parsePrimary table (.identifier name :: rest) =
      match Token.after? '(' rest with
      | none => .ok (.reference name) rest
      | some inner =>
        match Token.after? ')' inner with
        | some outer => .ok (.call name []) outer
        | none => (parseArguments table inner).map (.call name) := by
  rw [parsePrimary, primaryWithin]
  split
  · simp_all
  · split
    · simp_all
    · split <;> simp_all [parseArguments, Outcome.map]

theorem parsePrimary_parenthesis (inner : List Token) :
    parsePrimary table (.symbol '(' :: inner) =
      (parse table inner).andThen fun e left =>
        match Token.after? ')' left with
        | some outer => .ok e outer
        | none => .error (.expected ')' .closeParenthesis left.head?) left := by
  rw [parsePrimary, primaryWithin]
  simp only [↓reduceIte]
  split
  next e left h eq =>
    simp only [parse, eq, Outcome.andThen]
    split <;> simp_all
  · simp_all [parse, Outcome.andThen]

theorem parsePrimary_symbol {c : Char} (h : c ≠ '(') (rest : List Token) :
    parsePrimary table (.symbol c :: rest) =
      .error (.unexpected (some (.symbol c))) (.symbol c :: rest) := by
  rw [parsePrimary, primaryWithin, if_neg h]

@[simp] theorem parsePrimary_define (rest : List Token) :
    parsePrimary table (.define :: rest) =
      .error (.unexpected (some .define)) (.define :: rest) := by
  rw [parsePrimary, primaryWithin] <;> simp

@[simp] theorem parsePrimary_external (rest : List Token) :
    parsePrimary table (.external :: rest) =
      .error (.unexpected (some .external)) (.external :: rest) := by
  rw [parsePrimary, primaryWithin] <;> simp

@[simp] theorem parsePrimary_nil : parsePrimary table [] = .error (.unexpected none) [] := by
  rw [parsePrimary, primaryWithin] <;> simp

theorem parseArguments_eq (tokens : List Token) :
    parseArguments table tokens =
      (parse table tokens).andThen fun arg left =>
        match Token.after? ')' left with
        | some outer => .ok [arg] outer
        | none =>
          match Token.after? ',' left with
          | some next => (parseArguments table next).map (arg :: ·)
          | none => .error (.badSeparator left.head?) left := by
  rw [parseArguments, argumentsWithin]
  split
  · simp_all [parse, Outcome.andThen]
  next arg left h eq =>
    simp only [parse, eq, Outcome.andThen]
    split
    · simp_all
    · split
      · split <;> simp_all [parseArguments, Outcome.map]
      · simp_all

theorem parseOperators_symbol (bound : Int32) (lhs : Expr) (op : Char) (rest : List Token) :
    parseOperators table bound lhs (.symbol op :: rest) =
      if bound ≤ table.strength op then
        (parsePrimary table rest).andThen fun operand left =>
          (if table.strength op < table.nextStrength left then
            parseOperators table (table.strength op + 1) operand left
          else .ok operand left).andThen fun operand left =>
            parseOperators table bound (.binary op lhs operand) left
      else .ok lhs (.symbol op :: rest) := by
  rw [parseOperators, operatorsWithin]
  split
  · split
    · simp_all [parsePrimary, Outcome.andThen]
    next operand left h eq =>
      simp only [parsePrimary, eq, Outcome.andThen]
      split
      · split <;> simp_all [parseOperators]
      · rfl
  · rfl

theorem parseOperators_of_not_symbol (bound : Int32) (lhs : Expr) {tokens : List Token}
    (h : ∀ op rest, tokens ≠ .symbol op :: rest) :
    parseOperators table bound lhs tokens = .ok lhs tokens := by
  rw [parseOperators, operatorsWithin]
  exact h

theorem length_parse_le (tokens : List Token) :
    (parse table tokens).state.length ≤ tokens.length := (expressionWithin table tokens).2

theorem length_parseArguments_le (tokens : List Token) :
    (parseArguments table tokens).state.length ≤ tokens.length := (argumentsWithin table tokens).2

theorem length_parseOperators_le (bound : Int32) (lhs : Expr) (tokens : List Token) :
    (parseOperators table bound lhs tokens).state.length ≤ tokens.length :=
  (operatorsWithin table bound lhs tokens).2

def parseNumber (tokens : List Token) : Parsed Expr :=
  match tokens with
  | .number _ :: _ => parsePrimary table tokens
  | _ => .error (.unexpected tokens.head?) tokens

def parseReference (tokens : List Token) : Parsed Expr :=
  match tokens with
  | .identifier _ :: _ => parsePrimary table tokens
  | _ => .error (.unexpected tokens.head?) tokens

def parseParenthesized (tokens : List Token) : Parsed Expr :=
  match Token.after? '(' tokens with
  | some _ => parsePrimary table tokens
  | none => .error (.expected '(' .openParenthesis tokens.head?) tokens

end Expr

end Formula
