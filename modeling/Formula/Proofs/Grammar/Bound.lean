import Formula.Proofs.Grammar.Climbing

/-! # The bound of climbing

A character that is no operator has a strength, too: a negative one, which is compared with
the bound like any other. From 0 on a bound admits operators only, and climbing ends at every
other token. Below 0 a bound admits every character: climbing first does what it does with 0,
and then folds whatever symbol it has stopped at.
-/

namespace Formula

namespace OperatorTable

variable {table : OperatorTable} {bound : Int32}

def Admits (table : OperatorTable) (bound : Int32) (op : Char) : Prop :=
  table.isOperator op = true ∧ bound ≤ table.strength op

def Refuses (table : OperatorTable) (bound : Int32) (tokens : List Token) : Prop :=
  ∀ op rest, tokens = .symbol op :: rest → ¬ table.Admits bound op

theorem refuses_iff (hb : 0 ≤ bound) {tokens : List Token} :
    table.Refuses bound tokens ↔ table.nextStrength tokens < bound := by
  constructor
  · intro ends
    rw [← Int32.not_le]
    intro admitted
    obtain ⟨op, rest, rfl⟩ := exists_symbol_of_nonneg (Int32.le_trans hb admitted)
    exact ends op rest rfl ⟨isOperator_of_le hb admitted, admitted⟩
  · rintro lt op rest rfl ⟨-, admitted⟩
    exact Int32.not_le.mpr lt admitted

theorem Derives.chain {ops : List (Char × Expr)} {taken rest : List Token}
    (h : table.Derives (.operations ops) taken rest.head?) :
    table.Chain ops (taken ++ rest) rest := by
  induction ops generalizing taken with
  | nil =>
    cases h
    exact .nil rest
  | cons o ops ih =>
    cases h with
    | @operation op operand _ tokens more _ _ primary operations =>
      rw [← List.head?_append] at primary
      have reads := (Expr.reads_derived table tokens).1 operand (more ++ rest) primary
      have chain : table.Chain ((op, operand) :: ops)
          (.symbol op :: (tokens ++ (more ++ rest))) rest := .cons reads (ih operations)
      simpa using chain

end OperatorTable

namespace Expr

open OperatorTable

variable {table : OperatorTable} {bound : Int32}

/--
Climbing folds a chain of admitted operators into the tree of the chain, and no other symbols:
it ends at the first token that is no admitted operator, and leaves that token in front.
-/
def FoldsOperators (table : OperatorTable) (bound : Int32) (lhs : Expr) (tokens : List Token) :
    Prop :=
  ∀ e rest, parseOperators table bound lhs tokens = .ok e rest ↔
    ∃ ops, table.Chain ops tokens rest ∧ table.Folds lhs ops e ∧
      (∀ o ∈ ops, table.Admits bound o.1) ∧ table.Refuses bound rest

theorem foldsOperators_of_nonneg (hb : 0 ≤ bound) (lhs : Expr) (tokens : List Token) :
    FoldsOperators table bound lhs tokens := by
  intro e rest
  constructor
  · intro reads
    obtain ⟨ops, taken, rfl, operations, climbs, stops⟩ :=
      (reading_forms table tokens).2.2.1 lhs bound e rest hb reads
    have ends := (refuses_iff hb).mpr (Int32.not_le.mp stops)
    cases climbs with
    | @intro used _ _ folds binds _ =>
      have admitted : ∀ o ∈ used, table.Admits bound o.1 := fun o mem =>
        ⟨isOperator_of_le hb (binds o mem), binds o mem⟩
      rw [List.append_nil] at operations
      exact ⟨used, operations.chain, folds, admitted, ends⟩
  · rintro ⟨ops, chain, folds, admitted, ends⟩
    obtain ⟨e', reads, folds'⟩ :=
      chain.exists_folds hb (fun o mem => (admitted o mem).2) ((refuses_iff hb).mp ends) lhs
    rwa [folds.unique folds']

theorem length_of_round {op : Char} {operand rhs : Expr} {tokens left left' : List Token}
    (primary : parsePrimary table tokens = .ok operand left)
    (tighter : parseTighter table (table.strength op) operand left = .ok rhs left') :
    left'.length < (Token.symbol op :: tokens).length := by
  have left_lt := length_parsePrimary_lt primary
  have left'_le := length_parseTighter_le table (table.strength op) operand left
  rw [tighter, Outcome.state_ok] at left'_le
  grind

/-- With a bound below 0, climbing goes on where it would end with 0. -/
theorem parseOperators_of_neg (hb : bound < 0) (lhs : Expr) (tokens : List Token) :
    parseOperators table bound lhs tokens =
      (parseOperators table 0 lhs tokens).andThen (parseOperators table bound) := by
  induction hn : tokens.length using Nat.strongRecOn generalizing lhs tokens with
  | ind n ih =>
    subst hn
    by_cases stops : table.nextStrength tokens < 0
    · rw [parseOperators_of_nextStrength_lt stops, Outcome.andThen_ok]
    have goes := Int32.not_lt.mp stops
    obtain ⟨op, rest, rfl⟩ := exists_symbol_of_nonneg goes
    -- The two bounds play a part only where a round has ended, behind an operator and its operand.
    rw [parseOperators_of_le (le_strength_of_neg hb op), parseOperators_of_le goes,
      Outcome.andThen_assoc]
    apply Outcome.andThen_congr
    intro operand left primary
    rw [Outcome.andThen_assoc]
    apply Outcome.andThen_congr
    intro rhs left' tighter
    exact ih _ (length_of_round primary tighter) _ _ rfl

theorem length_parseOperators_lt {op : Char} {lhs e : Expr} {tokens rest : List Token}
    (admitted : bound ≤ table.strength op)
    (h : parseOperators table bound lhs (.symbol op :: tokens) = .ok e rest) :
    rest.length < (Token.symbol op :: tokens).length := by
  rw [parseOperators_of_le admitted] at h
  obtain ⟨operand, left, primary, folded⟩ := Outcome.andThen_eq_ok.mp h
  obtain ⟨rhs, left', tighter, onward⟩ := Outcome.andThen_eq_ok.mp folded
  have rest_le := length_parseOperators_le table bound (.binary op lhs rhs) left'
  rw [onward, Outcome.state_ok] at rest_le
  exact Nat.lt_of_le_of_lt rest_le (length_of_round primary tighter)

theorem foldsOperators_iff_of_neg (hb : bound < 0) {lhs : Expr} {tokens : List Token} :
    FoldsOperators table bound lhs tokens ↔
      ∀ e rest, parseOperators table bound lhs tokens = .ok e rest ↔
        parseOperators table 0 lhs tokens = .ok e rest := by
  have admits (op : Char) : table.Admits bound op ↔ table.Admits 0 op := by
    apply and_congr_right
    intro is
    have positive := Int32.le_of_lt (isOperator_iff.mp is)
    exact iff_of_true (Int32.le_trans (Int32.le_of_lt hb) positive) positive
  have nonneg : FoldsOperators table 0 lhs tokens :=
    foldsOperators_of_nonneg (Int32.le_refl 0) lhs tokens
  simp only [FoldsOperators, Refuses, admits] at nonneg ⊢
  simp only [nonneg]

/--
Climbing folds operators only with a bound from 0 on. With a lower bound it does so just where
the chain of operators is not followed by a symbol, since it folds every symbol that follows.
-/
theorem foldsOperators_iff (table : OperatorTable) (bound : Int32) (lhs : Expr)
    (tokens : List Token) :
    FoldsOperators table bound lhs tokens ↔
      0 ≤ bound ∨
        ∀ e op rest, parseOperators table 0 lhs tokens ≠ .ok e (.symbol op :: rest) := by
  by_cases hb : 0 ≤ bound
  · simp only [hb, true_or, iff_true]
    exact foldsOperators_of_nonneg hb lhs tokens
  have neg := Int32.not_le.mp hb
  simp only [hb, false_or]
  rw [foldsOperators_iff_of_neg neg, parseOperators_of_neg neg]
  constructor
  · intro same e op rest stopped
    have onward := (same e (.symbol op :: rest)).mpr stopped
    rw [stopped, Outcome.andThen_ok] at onward
    exact Nat.lt_irrefl _ (length_parseOperators_lt (le_strength_of_neg neg op) onward)
  · intro unstopped e rest
    cases front : parseOperators table 0 lhs tokens with
    | error cause left => rw [Outcome.andThen_error]
    | ok e' left =>
      have behind : parseOperators table bound e' left = .ok e' left := by
        apply parseOperators_of_not_symbol
        rintro op rest rfl
        exact unstopped e' op rest front
      rw [Outcome.andThen_ok, behind]

/-- With the bound −1, a closing parenthesis is folded like an operator. -/
theorem not_foldsOperators_parenthesis :
    parseOperators .standard (-1) (.reference "x") [.symbol ')', .identifier "y"] =
      .ok (.binary ')' (.reference "x") (.reference "y")) [] ∧
    OperatorTable.standard.isOperator ')' = false ∧
    ¬ FoldsOperators .standard (-1) (.reference "x") [.symbol ')', .identifier "y"] := by
  have neg : (-1 : Int32) < 0 := by decide
  have reads : parseOperators .standard (-1) (.reference "x") [.symbol ')', .identifier "y"] =
      .ok (.binary ')' (.reference "x") (.reference "y")) [] := by
    have operand : parsePrimary .standard [.identifier "y"] = .ok (.reference "y") [] :=
      parsePrimary_identifier _ _ _
    have alone : parseTighter .standard (standard.strength ')') (.reference "y") [] =
        .ok (.reference "y") [] := if_neg (by decide)
    rw [parseOperators_of_le (le_strength_of_neg neg ')'), operand, Outcome.andThen_ok, alone,
      Outcome.andThen_ok]
    exact parseOperators_of_not_symbol _ _ _ (by simp)
  have ends : parseOperators .standard 0 (.reference "x") [.symbol ')', .identifier "y"] =
      .ok (.reference "x") [.symbol ')', .identifier "y"] :=
    parseOperators_of_nextStrength_lt (by decide) _
  refine ⟨reads, by decide, fun folds => ?_⟩
  have same := ((foldsOperators_iff_of_neg neg).mp folds _ _).mp reads
  rw [ends] at same
  cases same

end Expr

end Formula
