import Formula.Proofs.Grammar.Completeness

/-! # The tree of a chain

A chain of operators and primaries has many trees, and one that respects the strengths: at each
node, the operators of the right side bind tighter than the one of the node, and those of the
left side do not bind weaker. Climbing takes the front of a chain that its bound admits, and
builds this tree of it.
-/

namespace Formula

/-- A tree of operators over expressions; the expressions are leaves, whatever they are. -/
inductive OperatorTree where
  | leaf (e : Expr)
  | node (op : Char) (lhs rhs : OperatorTree)

namespace OperatorTree

def expr : OperatorTree → Expr
  | leaf e => e
  | node op lhs rhs => .binary op lhs.expr rhs.expr

def first : OperatorTree → Expr
  | leaf e => e
  | node _ lhs _ => lhs.first

/-- The operators from left to right, each with the leaf behind it. -/
def chain : OperatorTree → List (Char × Expr)
  | leaf _ => []
  | node op lhs rhs => lhs.chain ++ (op, rhs.first) :: rhs.chain

/-- At each node, no operator before it binds weaker, and all operators behind it bind tighter. -/
inductive Ordered (table : OperatorTable) : OperatorTree → Prop where
  | leaf (e : Expr) : Ordered table (.leaf e)
  | node {op : Char} {lhs rhs : OperatorTree} : Ordered table lhs → Ordered table rhs →
    (∀ o ∈ lhs.chain, table.strength op ≤ table.strength o.1) →
    (∀ o ∈ rhs.chain, table.strength op < table.strength o.1) → Ordered table (.node op lhs rhs)

variable {table : OperatorTable}

/-- An ordered tree is determined by its leaves and operators from left to right. -/
theorem Ordered.unique {tree other : OperatorTree} (h : tree.Ordered table)
    (h' : other.Ordered table) (first : tree.first = other.first)
    (chain : tree.chain = other.chain) : tree = other := by
  induction h generalizing other with
  | leaf e =>
    cases h' with
    | leaf => exact congrArg OperatorTree.leaf first
    | node => simp [OperatorTree.chain] at chain
  | node _ _ weakest last ihl ihr =>
    cases h' with
    | leaf => simp [OperatorTree.chain] at chain
    | node hl hr weakest' last' =>
      obtain ⟨before, root, after⟩ :=
        OperatorTable.root_unique chain weakest last weakest' last'
      obtain ⟨rfl, operand⟩ := Prod.mk.inj root
      rw [ihl hl first before, ihr hr operand after]

theorem exists_ordered {first e : Expr} {ops : List (Char × Expr)} (h : table.Folds first ops e) :
    ∃ tree : OperatorTree, tree.Ordered table ∧ tree.first = first ∧ tree.chain = ops ∧
      tree.expr = e := by
  induction h with
  | operand e => exact ⟨.leaf e, .leaf e, rfl, rfl, rfl⟩
  | @root _ _ _ _ op _ _ _ _ weakest last ihl ihr =>
    obtain ⟨lhs, hl, rfl, rfl, rfl⟩ := ihl
    obtain ⟨rhs, hr, rfl, rfl, rfl⟩ := ihr
    exact ⟨.node op lhs rhs, .node hl hr weakest last, rfl, rfl, rfl⟩

end OperatorTree

namespace OperatorTable

/-- Symbols and primaries in turn stand before the rest of the tokens. -/
inductive Chain (table : OperatorTable) :
    List (Char × Expr) → List Token → List Token → Prop where
  | nil (rest : List Token) : Chain table [] rest rest
  | cons {op : Char} {operand : Expr} {ops : List (Char × Expr)} {tokens left rest : List Token} :
    Expr.parsePrimary table tokens = .ok operand left → Chain table ops left rest →
    Chain table ((op, operand) :: ops) (.symbol op :: tokens) rest

namespace Chain

variable {table : OperatorTable} {ops used left : List (Char × Expr)} {tokens rest : List Token}

theorem split (h : table.Chain (used ++ left) tokens rest) :
    ∃ behind, table.Chain used tokens behind ∧ table.Chain left behind rest := by
  induction used generalizing tokens with
  | nil => exact ⟨tokens, .nil tokens, h⟩
  | cons o used ih =>
    cases h with
    | cons primary later =>
      obtain ⟨behind, front, back⟩ := ih later
      exact ⟨behind, .cons primary front, back⟩

theorem nextStrength_eq {o : Char × Expr} (h : table.Chain ops tokens rest)
    (head : ops.head? = some o) : table.nextStrength tokens = table.strength o.1 := by
  cases h with
  | nil => cases head
  | cons => rw [← Option.some.inj head, nextStrength_symbol]

theorem derives (h : table.Chain ops tokens rest)
    (operators : ∀ o ∈ ops, table.isOperator o.1 = true) :
    ∃ taken, tokens = taken ++ rest ∧ table.Derives (.operations ops) taken rest.head? := by
  induction h with
  | nil rest => exact ⟨[], rfl, .noOperation _⟩
  | @cons op operand ops tokens left rest primary _ ih =>
    have is : table.isOperator op = true := operators (op, operand) List.mem_cons_self
    obtain ⟨more, rfl, others⟩ := ih fun o mem => operators o (List.mem_cons_of_mem _ mem)
    obtain ⟨taken, rfl, derived⟩ := (Expr.reading_forms table tokens).1 operand _ primary
    rw [List.head?_append] at derived
    exact ⟨.symbol op :: (taken ++ more), by simp, .operation is derived others⟩

theorem exists_folds {bound : Int32} (h : table.Chain ops tokens rest) (hb : 0 ≤ bound)
    (admitted : ∀ o ∈ ops, bound ≤ table.strength o.1) (ends : table.nextStrength rest < bound)
    (lhs : Expr) :
    ∃ e, Expr.parseOperators table bound lhs tokens = .ok e rest ∧ table.Folds lhs ops e := by
  obtain ⟨taken, rfl, derived⟩ := h.derives fun o mem => isOperator_of_le hb (admitted o mem)
  obtain ⟨e, ops', taken', reads, derived', climbs⟩ :=
    (Expr.reads_derived table taken).2.2.2 ops rest lhs bound hb derived ends
  -- What climbing leaves would begin with an operator that the bound does not admit.
  obtain rfl : ops' = [] := by
    cases climbs with
    | intro _ _ stops =>
      cases ops' with
      | nil => rfl
      | cons o _ => exact (stops o rfl (admitted o (by simp))).elim
  cases derived'
  exact ⟨e, reads, climbs.folds⟩

end Chain

end OperatorTable

namespace Expr

open OperatorTable

variable {table : OperatorTable}

/-- The bound of an operand is the successor of a strength, as an integer: it does not overflow. -/
theorem parseOperators_of_tighter {bound : Int32} {op : Char} {operand : Expr}
    {tokens left : List Token} (admitted : bound ≤ table.strength op)
    (primary : parsePrimary table tokens = .ok operand left)
    (tighter : table.strength op < table.nextStrength left) (lhs : Expr) :
    ∃ next : Int32, next.toInt = (table.strength op).toInt + 1 ∧
      parseOperators table bound lhs (.symbol op :: tokens) =
        (parseOperators table next operand left).andThen fun rhs =>
          parseOperators table bound (.binary op lhs rhs) := by
  refine ⟨table.strength op + 1, toInt_add_one tighter, ?_⟩
  rw [parseOperators_of_le admitted, primary, Outcome.andThen_ok, parseTighter, if_pos tighter]

/--
Of a chain of operators and primaries, climbing with a bound takes the longest front that has only
operators of at least that strength, and leaves the tokens behind it; what follows the chain must
not be admitted if all of the chain is. The result is the ordered tree of the front, the only one
with these leaves and operators. No bound of an operand overflows, whatever the strengths are.
-/
theorem parseOperators_climbs (table : OperatorTable) {bound : Int32} (hb : 0 ≤ bound) (lhs : Expr)
    {ops : List (Char × Expr)} {tokens rest : List Token} (chain : table.Chain ops tokens rest)
    (ends : (∀ o ∈ ops, bound ≤ table.strength o.1) → table.nextStrength rest < bound) :
    (∃ (used left : List (Char × Expr)) (behind : List Token) (tree : OperatorTree),
      ops = used ++ left ∧
      (∀ o ∈ used, table.isOperator o.1 = true ∧ bound ≤ table.strength o.1) ∧
      (∀ o, left.head? = some o → ¬ bound ≤ table.strength o.1) ∧
      table.Chain used tokens behind ∧ table.Chain left behind rest ∧
      parseOperators table bound lhs tokens = .ok tree.expr behind ∧
      tree.Ordered table ∧ tree.first = lhs ∧ tree.chain = used ∧
      ∀ other : OperatorTree, other.Ordered table → other.first = lhs → other.chain = used →
        other = tree) ∧
    ∀ (bound : Int32) (lhs operand : Expr) (op : Char) (tokens left : List Token),
      bound ≤ table.strength op → parsePrimary table tokens = .ok operand left →
      table.strength op < table.nextStrength left →
      ∃ next : Int32, next.toInt = (table.strength op).toInt + 1 ∧
        parseOperators table bound lhs (.symbol op :: tokens) =
          (parseOperators table next operand left).andThen fun rhs =>
            parseOperators table bound (.binary op lhs rhs) := by
  refine ⟨?_, fun _ lhs _ _ _ _ admitted primary tighter =>
    parseOperators_of_tighter admitted primary tighter lhs⟩
  let admits (o : Char × Expr) : Bool := decide (bound ≤ table.strength o.1)
  obtain ⟨used, left, rfl, admitted, stops⟩ : ∃ used left, ops = used ++ left ∧
      (∀ o ∈ used, bound ≤ table.strength o.1) ∧
      ∀ o, left.head? = some o → ¬ bound ≤ table.strength o.1 := by
    refine ⟨ops.takeWhile admits, ops.dropWhile admits, List.takeWhile_append_dropWhile.symm,
      ?_, ?_⟩
    · intro o mem
      simpa [admits] using List.all_eq_true.mp List.all_takeWhile o mem
    · intro o head
      have refused := List.head?_dropWhile_not admits ops
      rw [head] at refused
      simpa [admits] using refused
  obtain ⟨behind, front, back⟩ := chain.split
  have behind_lt : table.nextStrength behind < bound := by
    cases left with
    | nil =>
      cases back
      exact ends (by simpa using admitted)
    | cons o left =>
      rw [back.nextStrength_eq rfl]
      exact Int32.not_le.mp (stops o rfl)
  obtain ⟨e, reads, folds⟩ := front.exists_folds hb admitted behind_lt lhs
  obtain ⟨tree, ordered, first, operators, rfl⟩ := OperatorTree.exists_ordered folds
  refine ⟨used, left, behind, tree, rfl, fun o mem => ⟨isOperator_of_le hb (admitted o mem),
    admitted o mem⟩, stops, front, back, reads, ordered, first, operators, ?_⟩
  intro other ordered' first' operators'
  exact ordered'.unique ordered (first'.trans first.symm) (operators'.trans operators.symm)

/-- Strengths rise and fall up to the greatest one, and the last operator is not admitted. -/
theorem parseOperators_climbs_greatest :
    let table := (((OperatorTable.empty.set '<' 1).set '+' 2).set '-' 2).set '*' 2147483647
    let tokens : List Token := [.symbol '+', .identifier "b", .symbol '*', .identifier "c",
      .symbol '-', .identifier "d", .symbol '<', .identifier "e"]
    table.Chain [('+', .reference "b"), ('*', .reference "c"), ('-', .reference "d"),
      ('<', .reference "e")] tokens [] ∧
    ∃ (behind : List Token) (tree : OperatorTree),
      parseOperators table 2 (.reference "a") tokens = .ok tree.expr behind ∧
      tree.Ordered table ∧ tree.first = .reference "a" := by
  intro table tokens
  have chain : table.Chain [('+', .reference "b"), ('*', .reference "c"), ('-', .reference "d"),
      ('<', .reference "e")] tokens [] := by
    have named (op : Char) (name : String) {ops : List (Char × Expr)} {left rest : List Token}
        (plain : Token.after? '(' left = none) (later : table.Chain ops left rest) :
        table.Chain ((op, .reference name) :: ops) (.symbol op :: .identifier name :: left) rest :=
      .cons (by rw [parsePrimary_identifier, plain]) later
    exact named _ _ rfl (named _ _ rfl (named _ _ rfl (named _ _ rfl (.nil []))))
  have bound : (0 : Int32) ≤ 2 := by decide
  have ends : table.nextStrength [] < 2 := by decide
  obtain ⟨⟨_, _, behind, tree, -, -, -, -, -, reads, ordered, first, -⟩, -⟩ :=
    parseOperators_climbs table bound (.reference "a") chain fun _ => ends
  exact ⟨chain, behind, tree, reads, ordered, first⟩

end Expr

end Formula
