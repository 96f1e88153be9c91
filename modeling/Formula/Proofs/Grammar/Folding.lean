import Formula.Proofs.Operator.Strength

/-! # Folded chains

A chain of operators and operands has one tree: its root is the last one of the weakest
operators, and the two sides of the root are folded likewise. Operands are leaves here,
whatever expressions they are.
-/

namespace Formula.OperatorTable

/-- The tree of a first operand and the operators and operands behind it. -/
inductive Folds (table : OperatorTable) : Expr → List (Char × Expr) → Expr → Prop where
  | operand (e : Expr) : Folds table e [] e
  | root {first operand lhs rhs : Expr} {op : Char} {before after : List (Char × Expr)} :
    Folds table first before lhs → Folds table operand after rhs →
    (∀ o ∈ before, table.strength op ≤ table.strength o.1) →
    (∀ o ∈ after, table.strength op < table.strength o.1) →
    Folds table first (before ++ (op, operand) :: after) (.binary op lhs rhs)

variable {table : OperatorTable} {first e : Expr} {ops : List (Char × Expr)}

/-- Two ways to choose the last one of the weakest operators are the same. -/
theorem root_unique {before before' after after' : List (Char × Expr)} {o o' : Char × Expr}
    (h : before ++ o :: after = before' ++ o' :: after')
    (weakest : ∀ p ∈ before, table.strength o.1 ≤ table.strength p.1)
    (last : ∀ p ∈ after, table.strength o.1 < table.strength p.1)
    (weakest' : ∀ p ∈ before', table.strength o'.1 ≤ table.strength p.1)
    (last' : ∀ p ∈ after', table.strength o'.1 < table.strength p.1) :
    before = before' ∧ o = o' ∧ after = after' := by
  rcases List.append_eq_append_iff.mp h with ⟨_ | ⟨p, between⟩, hb, ha⟩ | ⟨_ | ⟨p, between⟩, hb, ha⟩
  · obtain ⟨rfl, rfl⟩ := List.cons.inj ha
    exact ⟨by simpa using hb.symm, rfl, rfl⟩
  · -- The one root stands to the left of the other, and each is weaker.
    obtain ⟨rfl, rfl⟩ := List.cons.inj ha
    have one := weakest' o (by simp [hb])
    have other := last o' (by simp)
    exact (Int32.lt_irrefl (Int32.lt_of_lt_of_le other one)).elim
  · obtain ⟨rfl, rfl⟩ := List.cons.inj ha
    exact ⟨by simpa using hb, rfl, rfl⟩
  · obtain ⟨rfl, rfl⟩ := List.cons.inj ha
    have one := weakest o' (by simp [hb])
    have other := last' o (by simp)
    exact (Int32.lt_irrefl (Int32.lt_of_lt_of_le other one)).elim

theorem Folds.eq_of_nil (h : table.Folds first [] e) : e = first := by
  generalize hops : ([] : List (Char × Expr)) = ops at h
  cases h with
  | operand => rfl
  | root => simp at hops

theorem Folds.unique {e' : Expr} (h : table.Folds first ops e) (h' : table.Folds first ops e') :
    e = e' := by
  induction h generalizing e' with
  | operand => exact h'.eq_of_nil.symm
  | @root first operand lhs rhs op before after hl hr weakest last ihl ihr =>
    generalize hops : before ++ (op, operand) :: after = ops at h'
    cases h' with
    | operand => simp at hops
    | root hl' hr' weakest' last' =>
      obtain ⟨rfl, same, rfl⟩ := root_unique hops weakest last weakest' last'
      obtain ⟨rfl, rfl⟩ := Prod.mk.inj same
      rw [ihl hl', ihr hr']

/--
Folding an operator with its operand into the left side first, and all others afterwards, gives
the tree of the whole chain, if the operand took the operators that bind tighter and no others.
-/
theorem Folds.push {lhs operand rhs : Expr} {op : Char} {tighter : List (Char × Expr)}
    (h : table.Folds (.binary op lhs rhs) ops e) (hr : table.Folds operand tighter rhs)
    (ht : ∀ o ∈ tighter, table.strength op < table.strength o.1)
    (ho : ∀ o, ops.head? = some o → table.strength o.1 ≤ table.strength op) :
    table.Folds lhs ((op, operand) :: tighter ++ ops) e := by
  generalize hf : Expr.binary op lhs rhs = first at h
  induction h with
  | operand =>
    subst hf
    simpa using Folds.root (.operand lhs) hr (by simp) ht
  | @root first operand' lhs' rhs' op' before after _ hr' weakest last ihl _ =>
    subst hf
    have weaker : table.strength op' ≤ table.strength op := by
      cases before with
      | nil => exact ho (op', operand') rfl
      | cons o before => exact Int32.le_trans (weakest o (by simp)) (ho o rfl)
    have left := ihl (fun o head => ho o (by simp [head])) rfl
    have split : (op, operand) :: tighter ++ (before ++ (op', operand') :: after) =
        ((op, operand) :: tighter ++ before) ++ (op', operand') :: after := by simp
    rw [split]
    refine .root left hr' ?_ last
    intro o hm
    simp only [List.cons_append, List.mem_cons, List.mem_append] at hm
    rcases hm with rfl | hm | hm
    · exact weaker
    · exact Int32.le_of_lt (Int32.lt_of_le_of_lt weaker (ht o hm))
    · exact weakest o hm

/--
The operators at the front of a chain that bind as required are folded into `lhs`, and the chain
from the first other operator on is left.
-/
inductive Climbs (table : OperatorTable) (binds : Int32 → Prop) (lhs : Expr) :
    List (Char × Expr) → Expr → List (Char × Expr) → Prop where
  | intro {used left : List (Char × Expr)} {e : Expr} : table.Folds lhs used e →
    (∀ o ∈ used, binds (table.strength o.1)) →
    (∀ o, left.head? = some o → ¬ binds (table.strength o.1)) →
    Climbs table binds lhs (used ++ left) e left

namespace Climbs

variable {binds : Int32 → Prop} {lhs rhs operand : Expr} {op : Char}
  {left last : List (Char × Expr)}

theorem stop (lhs : Expr) (h : ∀ o, ops.head? = some o → ¬ binds (table.strength o.1)) :
    table.Climbs binds lhs ops lhs ops := by
  have climbs : table.Climbs binds lhs ([] ++ ops) lhs ops := .intro (.operand lhs) (by simp) h
  exact climbs

theorem nil (lhs : Expr) : table.Climbs binds lhs [] lhs [] := stop lhs (by simp)

theorem folds (h : table.Climbs binds lhs ops e []) : table.Folds lhs ops e := by
  cases h with
  | intro folds _ _ => simpa using folds

theorem append (h : table.Climbs binds lhs ops e [])
    (hl : ∀ o, left.head? = some o → ¬ binds (table.strength o.1)) :
    table.Climbs binds lhs (ops ++ left) e left := by
  cases h with
  | intro folds bound _ => exact .intro (by simpa using folds) (by simpa using bound) hl

/--
One round of climbing: an operator takes its operand, which takes the operators that bind tighter,
and the result is the left side of all that follows.
-/
theorem cons (here : binds (table.strength op))
    (above : ∀ s, table.strength op < s → binds s)
    (inner : table.Climbs (table.strength op < ·) operand ops rhs left)
    (outer : table.Climbs binds (.binary op lhs rhs) left e last) :
    table.Climbs binds lhs ((op, operand) :: ops) e last := by
  cases inner with
  | @intro tighter _ _ hr ht ends =>
    cases outer with
    | @intro used _ _ folds bound stops =>
      have weaker : ∀ o, used.head? = some o → table.strength o.1 ≤ table.strength op := by
        intro o head
        exact Int32.not_lt.mp (ends o (by simp [head]))
      have whole := folds.push hr ht weaker
      have split : (op, operand) :: (tighter ++ (used ++ last)) =
          ((op, operand) :: tighter ++ used) ++ last := by simp
      rw [split]
      refine .intro whole ?_ stops
      intro o hm
      simp only [List.cons_append, List.mem_cons, List.mem_append] at hm
      rcases hm with rfl | hm | hm
      · exact here
      · exact above _ (ht o hm)
      · exact bound o hm

end Climbs

end Formula.OperatorTable
