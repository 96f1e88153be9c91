import Formula.Proofs.Operator.Strength
import Formula.Session.Basic

/-! # What reading leaves

Reading takes tokens from the front, whether it succeeds or fails, and leaves the others as
they are.
-/

namespace Formula

namespace Token

theorem suffix_of_after? {c : Char} {tokens rest : List Token} (h : after? c tokens = some rest) :
    rest <:+ tokens :=
  after?_eq_some.mp h ▸ List.suffix_cons _ rest

theorem names_suffix (tokens : List Token) : (names tokens).2 <:+ tokens := by
  fun_induction names tokens with
  | case1 name rest more left eq ih =>
    rw [eq] at ih
    exact ih.trans (List.suffix_cons _ rest)
  | case2 => exact List.suffix_rfl

end Token

def Parsed.Leaves {α : Type} (parsed : Parsed α) (tokens : List Token) : Prop :=
  parsed.state <:+ tokens

namespace Parsed

variable {α β : Type} {parsed : Parsed α} {tokens rest : List Token}

theorem Leaves.suffix_of_ok {value : α} (h : parsed.Leaves tokens)
    (found : parsed = .ok value rest) : rest <:+ tokens := by
  rwa [found] at h

theorem Leaves.mono (h : parsed.Leaves rest) (hs : rest <:+ tokens) : parsed.Leaves tokens :=
  h.trans hs

theorem Leaves.map (h : parsed.Leaves tokens) (f : α → β) :
    Parsed.Leaves (parsed.map f) tokens := by
  simpa [Leaves] using h

theorem Leaves.andThen {next : α → List Token → Parsed β} (h : parsed.Leaves tokens)
    (h' : ∀ value left, parsed = .ok value left → (next value left).Leaves left) :
    Parsed.Leaves (parsed.andThen next) tokens := by
  cases parsed with
  | ok value left => exact (h' value left rfl).mono h
  | error => exact h

end Parsed

namespace Expr

variable {table : OperatorTable} {tokens : List Token}

theorem parsePrimary_leaves
    (he : ∀ rest, rest.length < tokens.length → (parse table rest).Leaves rest)
    (ha : ∀ rest, rest.length < tokens.length → (parseArguments table rest).Leaves rest) :
    (parsePrimary table tokens).Leaves tokens := by
  match tokens with
  | [] | .define :: _ | .external :: _ => simp [Parsed.Leaves]
  | .number value :: rest => simp [Parsed.Leaves]
  | .identifier name :: rest =>
    rw [parsePrimary_identifier]
    split
    · exact List.suffix_cons _ rest
    next inner opened =>
      obtain rfl := Token.after?_eq_some.mp opened
      have behind : inner <:+ .identifier name :: .symbol '(' :: inner :=
        (List.suffix_cons _ inner).trans (List.suffix_cons _ _)
      split
      next outer closed => exact (Token.suffix_of_after? closed).trans behind
      · exact ((ha inner (by simp only [List.length_cons]; omega)).map _).mono behind
  | .symbol c :: inner =>
    by_cases hc : c = '('
    · subst hc
      rw [parsePrimary_parenthesis]
      refine Parsed.Leaves.mono ?_ (List.suffix_cons _ inner)
      refine (he inner (by simp)).andThen fun e left _ => ?_
      split
      next outer closed => exact Token.suffix_of_after? closed
      · exact List.suffix_rfl
    · rw [parsePrimary_symbol table hc]
      exact List.suffix_rfl

theorem parseTighter_leaves
    (ho : ∀ bound lhs, (parseOperators table bound lhs tokens).Leaves tokens) (s : Int32)
    (operand : Expr) : (parseTighter table s operand tokens).Leaves tokens := by
  unfold parseTighter
  split
  · exact ho _ _
  · exact List.suffix_rfl

theorem parseOperators_leaves
    (hp : ∀ rest, rest.length < tokens.length → (parsePrimary table rest).Leaves rest)
    (ho : ∀ rest, rest.length < tokens.length →
      ∀ bound lhs, (parseOperators table bound lhs rest).Leaves rest)
    (bound : Int32) (lhs : Expr) : (parseOperators table bound lhs tokens).Leaves tokens := by
  match tokens with
  | .symbol op :: rest =>
    by_cases goes : bound ≤ table.strength op
    · rw [parseOperators_of_le goes]
      refine Parsed.Leaves.mono ?_ (List.suffix_cons _ rest)
      refine (hp rest (by simp)).andThen fun operand left first => ?_
      have left_lt := length_parsePrimary_lt first
      have tighter := parseTighter_leaves (ho left (by simp only [List.length_cons]; omega))
        (table.strength op) operand
      refine tighter.andThen fun operand' left' folded => ?_
      have left'_le := (tighter.suffix_of_ok folded).length_le
      exact ho left' (by simp only [List.length_cons]; omega) _ _
    · have stops : table.nextStrength (.symbol op :: rest) < bound := Int32.not_le.mp goes
      rw [parseOperators_of_nextStrength_lt stops]
      exact List.suffix_rfl
  | [] | .define :: _ | .external :: _ | .identifier _ :: _ | .number _ :: _ =>
    rw [parseOperators_of_not_symbol _ _ _ (by simp)]
    exact List.suffix_rfl

theorem parse_leaves_of (hp : (parsePrimary table tokens).Leaves tokens)
    (ho : ∀ rest, rest.length < tokens.length →
      ∀ bound lhs, (parseOperators table bound lhs rest).Leaves rest) :
    (parse table tokens).Leaves tokens := by
  rw [parse_eq]
  exact hp.andThen fun first left h => ho left (length_parsePrimary_lt h) 0 first

theorem parseArguments_leaves (he : (parse table tokens).Leaves tokens)
    (ha : ∀ rest, rest.length < tokens.length → (parseArguments table rest).Leaves rest) :
    (parseArguments table tokens).Leaves tokens := by
  rw [parseArguments_eq]
  refine he.andThen fun arg left h => ?_
  have left_lt := length_parse_lt h
  split
  next outer closed => exact Token.suffix_of_after? closed
  · split
    next next separated =>
      have next_suffix := Token.suffix_of_after? separated
      have next_le := next_suffix.length_le
      exact ((ha next (by omega)).map _).mono next_suffix
    · exact List.suffix_rfl

theorem leaves_suffix (table : OperatorTable) (tokens : List Token) :
    (parsePrimary table tokens).Leaves tokens ∧ (parseArguments table tokens).Leaves tokens ∧
      (∀ bound lhs, (parseOperators table bound lhs tokens).Leaves tokens) ∧
      (parse table tokens).Leaves tokens := by
  induction hn : tokens.length using Nat.strongRecOn generalizing tokens with
  | ind n ih =>
    -- A primary and the operators read shorter lists only; an expression reads its primary, and
    -- the arguments their first expression, from all tokens.
    subst hn
    have shorter := fun rest (h : rest.length < tokens.length) => ih _ h rest rfl
    have primary := parsePrimary_leaves (fun rest h => (shorter rest h).2.2.2)
      fun rest h => (shorter rest h).2.1
    have expression := parse_leaves_of primary fun rest h => (shorter rest h).2.2.1
    exact ⟨primary, parseArguments_leaves expression fun rest h => (shorter rest h).2.1,
      parseOperators_leaves (fun rest h => (shorter rest h).1) fun rest h => (shorter rest h).2.2.1,
      expression⟩

theorem parse_leaves (table : OperatorTable) (tokens : List Token) :
    (parse table tokens).Leaves tokens := (leaves_suffix table tokens).2.2.2

end Expr

theorem Prototype.parse_leaves (tokens : List Token) : (parse tokens).Leaves tokens := by
  unfold parse
  split
  next name rest =>
    refine Parsed.Leaves.mono ?_ (List.suffix_cons _ rest)
    split
    · exact List.suffix_rfl
    next inner opened =>
      have left := (Token.names_suffix inner).trans (Token.suffix_of_after? opened)
      simp only
      split
      next outer closed => exact (Token.suffix_of_after? closed).trans left
      · exact left
  · exact List.suffix_rfl

theorem Prototype.parseExternal_leaves (tokens : List Token) :
    (parseExternal tokens).Leaves tokens := by
  unfold parseExternal
  split
  next rest => exact (parse_leaves rest).mono (List.suffix_cons _ rest)
  · exact List.suffix_rfl

theorem Definition.parse_leaves (table : OperatorTable) (tokens : List Token) :
    (parse table tokens).Leaves tokens := by
  unfold parse
  split
  next rest =>
    refine Parsed.Leaves.mono ?_ (List.suffix_cons _ rest)
    exact (Prototype.parse_leaves rest).andThen fun p left _ => (Expr.parse_leaves table left).map _
  · exact List.suffix_rfl

theorem Construct.parse_leaves (table : OperatorTable) (tokens : List Token) :
    (parse table tokens).Leaves tokens := by
  unfold parse
  split
  · exact (Definition.parse_leaves table _).map _
  · exact (Prototype.parseExternal_leaves _).map _
  · exact (Expr.parse_leaves table _).map _

theorem Item.next_suffix (table : OperatorTable) (tokens : List Token) :
    (next table tokens).2 <:+ tokens := by
  unfold next
  split
  next rest after => exact Token.suffix_of_after? after
  · have leaves := Construct.parse_leaves table tokens
    split
    next c rest parsed => exact leaves.suffix_of_ok parsed
    next cause rest eq =>
      rw [eq] at leaves
      exact (List.tail_suffix rest).trans leaves

theorem Item.parse_of_next {table : OperatorTable} {tokens : List Token} {c : Construct}
    (h : (next table tokens).1 = .construct c) :
    ∃ rest, Construct.parse table tokens = .ok c rest := by
  unfold next at h
  split at h
  · cases h
  · split at h
    next c' rest parsed =>
      obtain rfl := Item.construct.inj h
      exact ⟨rest, parsed⟩
    · cases h

end Formula
