import Formula.Grammar.Expression
import Formula.Token.Cursor

/-! # Reading constructs and programs

A construct opens with its keyword, or is an expression. A prototype has its argument names in
parentheses, with nothing between them.

A program is read to the end of its tokens or to its first error; semicolons between constructs are
passed over. A construct that was read has taken at least one token, and an error leaves no more
tokens than there were, so the loop over constructs ends.
-/

namespace Formula

def Token.names : List Token → List String × List Token
  | .identifier name :: rest =>
    let (more, left) := names rest
    (name :: more, left)
  | tokens => ([], tokens)

theorem Token.length_names_le (tokens : List Token) :
    (names tokens).2.length ≤ tokens.length := by
  fun_induction names tokens with
  | case1 name rest more left eq ih => simp_all; omega
  | case2 => exact Nat.le_refl _

namespace Prototype

def parse (tokens : List Token) : Parsed Prototype :=
  match tokens with
  | .identifier name :: rest =>
    match Token.after? '(' rest with
    | none => .error (.expected '(' .argumentNames rest.head?) rest
    | some inner =>
      let (args, left) := Token.names inner
      match Token.after? ')' left with
      | some outer => .ok ⟨name, args⟩ outer
      | none => .error (.expected ')' .argumentNames left.head?) left
  | _ => .error (.missingFunctionName tokens.head?) tokens

theorem length_parse_le (tokens : List Token) :
    (parse tokens).state.length ≤ tokens.length := by
  unfold parse
  split
  next name rest =>
    split
    · simp
    next inner open_ =>
      have := congrArg List.length (Token.after?_eq_some.mp open_)
      have := Token.length_names_le inner
      simp only
      split
      next outer close =>
        have := congrArg List.length (Token.after?_eq_some.mp close)
        simp_all; omega
      · simp_all; omega
  · simp

def parseExternal (tokens : List Token) : Parsed Prototype :=
  match tokens with
  | .external :: rest => parse rest
  | _ => .error (.expectedKeyword .external tokens.head?) tokens

end Prototype

def Definition.parse (table : OperatorTable) (tokens : List Token) : Parsed Definition :=
  match tokens with
  | .define :: rest =>
    (Prototype.parse rest).andThen fun p left => (Expr.parse table left).map (Definition.mk p)
  | _ => .error (.expectedKeyword .define tokens.head?) tokens

namespace Construct

def parse (table : OperatorTable) (tokens : List Token) : Parsed Construct :=
  match tokens with
  | .define :: _ => (Definition.parse table tokens).map .definition
  | .external :: _ => (Prototype.parseExternal tokens).map .external
  | _ => (Expr.parse table tokens).map .expression

end Construct

namespace Expr

variable {table : OperatorTable}

theorem length_parsePrimary_lt {tokens : List Token} {e : Expr} {rest : List Token}
    (h : parsePrimary table tokens = .ok e rest) : rest.length < tokens.length := by
  match tokens with
  | [] | .define :: _ | .external :: _ => simp at h
  | .number value :: left =>
    simp only [parsePrimary_number, Outcome.ok.injEq] at h
    simp [h.2]
  | .identifier name :: left =>
    rw [parsePrimary_identifier] at h
    split at h
    · simp_all
    next inner opened =>
      have := congrArg List.length (Token.after?_eq_some.mp opened)
      split at h
      next outer closed =>
        have := congrArg List.length (Token.after?_eq_some.mp closed)
        simp_all; omega
      next =>
        obtain ⟨args, hargs, -⟩ := Outcome.map_eq_ok.mp h
        have := length_parseArguments_le table inner
        simp_all; omega
  | .symbol c :: inner =>
    by_cases hc : c = '('
    · subst hc
      rw [parsePrimary_parenthesis] at h
      obtain ⟨v, left, hv, h⟩ := Outcome.andThen_eq_ok.mp h
      have := length_parse_le table inner
      split at h
      next outer closed =>
        have := congrArg List.length (Token.after?_eq_some.mp closed)
        simp_all; omega
      next => simp at h
    · simp [parsePrimary_symbol table hc] at h

theorem length_parse_lt {tokens : List Token} {e : Expr} {rest : List Token}
    (h : parse table tokens = .ok e rest) : rest.length < tokens.length := by
  rw [parse_eq] at h
  obtain ⟨first, left, hfirst, h⟩ := Outcome.andThen_eq_ok.mp h
  have := length_parsePrimary_lt hfirst
  have := length_parseOperators_le table 0 first left
  simp_all; omega

end Expr

theorem Prototype.length_parseExternal_lt {tokens : List Token} {p : Prototype}
    {rest : List Token} (h : parseExternal tokens = .ok p rest) : rest.length < tokens.length := by
  unfold parseExternal at h
  split at h
  next inner =>
    have left_le := length_parse_le inner
    rw [h, Outcome.state_ok] at left_le
    exact Nat.lt_succ_of_le left_le
  · simp at h

theorem Prototype.length_parseExternal_le (tokens : List Token) :
    (parseExternal tokens).state.length ≤ tokens.length := by
  unfold parseExternal
  split
  next inner => have := length_parse_le inner; simp; omega
  · simp

namespace Definition

variable {table : OperatorTable}

theorem length_parse_lt {tokens : List Token} {d : Definition} {rest : List Token}
    (h : parse table tokens = .ok d rest) : rest.length < tokens.length := by
  unfold parse at h
  split at h
  next inner =>
    obtain ⟨p, left, hp, h⟩ := Outcome.andThen_eq_ok.mp h
    obtain ⟨e, he, -⟩ := Outcome.map_eq_ok.mp h
    have := Prototype.length_parse_le inner
    have := Expr.length_parse_le table left
    simp_all; omega
  · simp at h

theorem length_parse_le (table : OperatorTable) (tokens : List Token) :
    (parse table tokens).state.length ≤ tokens.length := by
  unfold parse
  split
  next inner =>
    have := Prototype.length_parse_le inner
    cases hp : Prototype.parse inner with
    | ok p left =>
      have := Expr.length_parse_le table left
      simp_all; omega
    | error cause left => simp_all; omega
  · simp

end Definition

namespace Construct

variable {table : OperatorTable}

theorem length_parse_lt {tokens : List Token} {c : Construct} {rest : List Token}
    (h : parse table tokens = .ok c rest) : rest.length < tokens.length := by
  unfold parse at h
  split at h
  · obtain ⟨d, hd, -⟩ := Outcome.map_eq_ok.mp h
    exact Definition.length_parse_lt hd
  · obtain ⟨p, hp, -⟩ := Outcome.map_eq_ok.mp h
    exact Prototype.length_parseExternal_lt hp
  · obtain ⟨e, he, -⟩ := Outcome.map_eq_ok.mp h
    exact Expr.length_parse_lt he

theorem length_parse_le (table : OperatorTable) (tokens : List Token) :
    (parse table tokens).state.length ≤ tokens.length := by
  unfold parse
  split <;> rw [Outcome.state_map]
  · exact Definition.length_parse_le _ _
  · exact Prototype.length_parseExternal_le _
  · exact Expr.length_parse_le table _

end Construct

/-- Read constructs up to the end or the first error. -/
def parseProgram (table : OperatorTable) (tokens : List Token) : Parsed (List Construct) :=
  if tokens = [] then .ok [] []
  else
    match _h : Token.after? ';' tokens with
    | some rest => parseProgram table rest
    | none =>
      match _h : Construct.parse table tokens with
      | .ok construct rest => (parseProgram table rest).map (construct :: ·)
      | .error cause rest => .error cause rest
termination_by tokens.length
decreasing_by
  · rw [Token.after?_eq_some.mp _h]; simp
  · exact Construct.length_parse_lt _h

def parseText (table : OperatorTable) (text : String) : Except SyntaxError (List Construct) :=
  match parseProgram table (Token.ofText text) with
  | .ok constructs _ => .ok constructs
  | .error cause _ => .error cause

end Formula
