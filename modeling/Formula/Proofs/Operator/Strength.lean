import Formula.Grammar.Expression

/-! # Strengths

The strength of an operator is positive, and every other character has the same negative
one. Whether an expression goes on depends on its next token alone.
-/

namespace Formula

namespace OperatorTable

variable (table : OperatorTable)

theorem strength_eq_or_pos (op : Char) :
    table.strength op = notAnOperator ∨ 0 < table.strength op := by
  unfold strength
  split
  · cases found : table.entries.lookup op with
    | none => exact .inl rfl
    | some s =>
      obtain ⟨before, after, split, -⟩ := List.lookup_eq_some_iff.mp found
      exact .inr (table.positive (op, s) (by simp [split]))
  · exact .inl rfl

theorem not_strength_lt_notAnOperator (op : Char) : ¬ table.strength op < notAnOperator := by
  rcases table.strength_eq_or_pos op with none | positive
  · rw [none]
    exact Int32.lt_irrefl
  · exact fun lt => absurd (Int32.lt_trans positive lt) (by decide)

/-- The bound next to a strength is its successor, unless nothing binds tighter. -/
theorem toInt_add_one {s t : Int32} (h : s < t) : (s + 1).toInt = s.toInt + 1 := by
  have lt := Int32.lt_iff_toInt_lt.mp h
  have low := Int32.le_toInt s
  have high := Int32.toInt_lt t
  rw [Int32.toInt_add, Int32.toInt_one]
  exact Int.bmod_eq_of_le (by omega) (by omega)

theorem add_one_le_iff {s t : Int32} (h : s < t) (u : Int32) : s + 1 ≤ u ↔ s < u := by
  rw [Int32.le_iff_toInt_le, Int32.lt_iff_toInt_lt, toInt_add_one h, Int.add_one_le_iff]

variable {table}

theorem isOperator_iff {op : Char} : table.isOperator op = true ↔ 0 < table.strength op :=
  decide_eq_true_iff

theorem strength_of_not_isOperator {op : Char} (h : ¬ table.isOperator op = true) :
    table.strength op = notAnOperator :=
  (table.strength_eq_or_pos op).resolve_right fun pos => h (isOperator_iff.mpr pos)

theorem isOperator_of_le {op : Char} {bound : Int32} (hb : 0 ≤ bound)
    (h : bound ≤ table.strength op) : table.isOperator op = true := by
  refine isOperator_iff.mpr ((table.strength_eq_or_pos op).resolve_left fun none => ?_)
  rw [none] at h
  exact absurd (Int32.le_trans hb h) (by decide)

/-- Any bound below 0 admits every character. -/
theorem le_strength_of_neg {bound : Int32} (hb : bound < 0) (op : Char) :
    bound ≤ table.strength op := by
  have below : bound ≤ notAnOperator := by
    rw [Int32.lt_iff_toInt_lt] at hb
    rw [Int32.le_iff_toInt_le]
    exact Int.le_sub_one_of_lt hb
  exact Int32.le_trans below (Int32.not_lt.mp (table.not_strength_lt_notAnOperator op))

def Continues (table : OperatorTable) (next : Option Token) : Prop :=
  ∃ op, next = some (.symbol op) ∧ table.isOperator op = true

@[simp] theorem nextStrength_symbol (op : Char) (rest : List Token) :
    table.nextStrength (.symbol op :: rest) = table.strength op := rfl

theorem exists_symbol_of_nonneg {tokens : List Token} (h : 0 ≤ table.nextStrength tokens) :
    ∃ op rest, tokens = .symbol op :: rest := by
  match tokens with
  | .symbol op :: rest => exact ⟨op, rest, rfl⟩
  | [] | .define :: _ | .external :: _ | .identifier _ :: _ | .number _ :: _ =>
    have negative : (0 : Int32) ≤ notAnOperator := h
    exact absurd negative (by decide)

theorem nextStrength_congr {tokens other : List Token} (h : other.head? = tokens.head?) :
    table.nextStrength other = table.nextStrength tokens := by
  rcases tokens with _ | ⟨t, tokens⟩ <;> rcases other with _ | ⟨u, other⟩ <;>
    simp only [List.head?_nil, List.head?_cons, Option.some.injEq, reduceCtorEq] at h
  · rfl
  · subst h
    cases u <;> rfl

theorem nextStrength_of_not_continues {tokens : List Token}
    (h : ¬ table.Continues tokens.head?) : table.nextStrength tokens = notAnOperator := by
  unfold nextStrength
  split
  next op rest => exact strength_of_not_isOperator fun is => h ⟨op, rfl, is⟩
  · rfl

theorem not_continues_of_nextStrength_lt {tokens : List Token}
    (h : table.nextStrength tokens < 0) : ¬ table.Continues tokens.head? := by
  rintro ⟨op, next, is⟩
  obtain ⟨rest, rfl⟩ := List.head?_eq_some_iff.mp next
  have positive : 0 < table.strength op := isOperator_iff.mp is
  exact absurd (Int32.lt_trans positive h) (by decide)

end OperatorTable

namespace Expr

variable {table : OperatorTable} {bound : Int32}

/-- An operand takes the operators that bind tighter than the one before it. -/
def parseTighter (table : OperatorTable) (s : Int32) (operand : Expr) (tokens : List Token) :
    Parsed Expr :=
  if s < table.nextStrength tokens then parseOperators table (s + 1) operand tokens
  else .ok operand tokens

theorem parseOperators_of_le {op : Char} (h : bound ≤ table.strength op) (lhs : Expr)
    (tokens : List Token) :
    parseOperators table bound lhs (.symbol op :: tokens) =
      (parsePrimary table tokens).andThen fun operand left =>
        (parseTighter table (table.strength op) operand left).andThen fun operand =>
          parseOperators table bound (.binary op lhs operand) := by
  rw [parseOperators_symbol, if_pos h]
  rfl

theorem length_parseTighter_le (table : OperatorTable) (s : Int32) (operand : Expr)
    (tokens : List Token) :
    (parseTighter table s operand tokens).state.length ≤ tokens.length := by
  unfold parseTighter
  split
  · exact length_parseOperators_le _ _ _ _
  · exact Nat.le_refl _

theorem parseOperators_of_nextStrength_lt {tokens : List Token}
    (h : table.nextStrength tokens < bound) (lhs : Expr) :
    parseOperators table bound lhs tokens = .ok lhs tokens := by
  match tokens with
  | .symbol op :: rest =>
    rw [OperatorTable.nextStrength_symbol] at h
    rw [parseOperators_symbol, if_neg (Int32.not_le.mpr h)]
  | [] | .define :: _ | .external :: _ | .identifier _ :: _ | .number _ :: _ =>
    exact parseOperators_of_not_symbol _ _ _ (by simp)

end Expr

end Formula
