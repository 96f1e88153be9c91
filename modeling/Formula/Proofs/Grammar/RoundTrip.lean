import Formula.Proofs.Grammar.Acceptance
import Formula.Proofs.Grammar.Printed

/-! # Printing and reading back

Every operation is printed in parentheses, so an expression that is printed is a primary
whatever the strengths of its operators are. It ends at the parenthesis, comma or
semicolon behind it, as long as these are no operators.
-/

namespace Formula

namespace OperatorTable

variable {table : OperatorTable}

theorem not_continues_symbol {c : Char} (h : table.isOperator c = false) :
    ¬ table.Continues (some (.symbol c)) := by
  rintro ⟨op, ⟨⟩, operator⟩
  rw [h] at operator
  cases operator

theorem not_continues_none : ¬ table.Continues none := nofun

theorem Derives.expression_of_primary {e : Expr} {tokens : List Token} {next : Option Token}
    (h : table.Derives (.primary e) tokens next) (ends : ¬ table.Continues next) :
    table.Derives (.expression e) tokens next := by
  have derived : table.Derives (.expression e) (tokens ++ []) next :=
    .expression h (.noOperation next) ends (.operand e)
  rwa [List.append_nil] at derived

/-- One operation in parentheses needs no other strengths to compare with. -/
theorem Derives.parenthesized_operation {op : Char} {lhs rhs : Expr} {left right : List Token}
    (operator : table.isOperator op = true) (close : table.isOperator ')' = false)
    (hl : table.Derives (.primary lhs) left (some (.symbol op)))
    (hr : table.Derives (.primary rhs) right (some (.symbol ')'))) (next : Option Token) :
    table.Derives (.primary (.binary op lhs rhs))
      (.symbol '(' :: (left ++ .symbol op :: (right ++ [.symbol ')']))) next := by
  have operation : table.Derives (.operations [(op, rhs)]) (.symbol op :: (right ++ []))
      (some (.symbol ')')) := .operation operator hr (.noOperation _)
  have folds : table.Folds lhs ([] ++ (op, rhs) :: []) (.binary op lhs rhs) :=
    .root (.operand lhs) (.operand rhs) nofun nofun
  have inner := Derives.expression hl operation (not_continues_symbol close) folds
  simpa using inner.parenthesized next

theorem Derives.arguments_of_primary {args : List Expr} (close : table.isOperator ')' = false)
    (comma : table.isOperator ',' = false) (nonempty : args ≠ [])
    (h : ∀ arg ∈ args, ∀ next, next ≠ some (.symbol '(') →
      table.Derives (.primary arg) arg.tokens next) :
    table.Derives (.arguments args) ([.symbol ','].intercalate (args.map Expr.tokens))
      (some (.symbol ')')) := by
  induction args with
  | nil => exact absurd rfl nonempty
  | cons arg args ih =>
    have first := h arg List.mem_cons_self
    cases args with
    | nil =>
      have last := (first (some (.symbol ')')) (by simp)).expression_of_primary
        (not_continues_symbol close)
      simpa using last.lastArgument
    | cons other args =>
      have later := ih (List.cons_ne_nil _ _) fun e mem => h e (List.mem_cons_of_mem _ mem)
      have separated := (first (some (.symbol ',')) (by simp)).expression_of_primary
        (not_continues_symbol comma)
      simpa using separated.argument later

end OperatorTable

variable {table : OperatorTable}

/-- A printed expression is a primary, unless a parenthesis follows it. -/
theorem Expr.Printable.derives {e : Expr} (h : e.Printable table)
    (close : table.isOperator ')' = false) (comma : table.isOperator ',' = false) :
    ∀ next, next ≠ some (.symbol '(') → table.Derives (.primary e) e.tokens next := by
  induction h with
  | @number value _ _ => exact fun next _ => .number value next
  | @reference name _ => exact fun next ends => .reference name ends
  | @binary op lhs rhs operator _ notOpen _ _ ihl ihr =>
    intro next _
    have left := ihl (some (.symbol op)) (by simpa using notOpen)
    have right := ihr (some (.symbol ')')) (by simp)
    exact left.parenthesized_operation operator close right next
  | @call callee args _ _ ih =>
    intro next _
    rw [tokens, listTokens_eq]
    by_cases empty : args = []
    · subst empty
      exact .callEmpty callee next
    · exact (OperatorTable.Derives.arguments_of_primary close comma empty ih).call callee next

theorem Construct.Printable.derives {c : Construct} (h : c.Printable table)
    (close : table.isOperator ')' = false) (comma : table.isOperator ',' = false)
    {next : Option Token} (notOpen : next ≠ some (.symbol '(')) (ends : ¬ table.Continues next) :
    c.Derives table c.tokens next := by
  cases h with
  | @external p _ => exact .external p next
  | @definition p body _ printable =>
    exact .definition p ((printable.derives close comma next notOpen).expression_of_primary ends)
  | expression printable =>
    exact .expression ((printable.derives close comma next notOpen).expression_of_primary ends)

theorem OperatorTable.program_of_printable {constructs : List Construct}
    (close : table.isOperator ')' = false) (comma : table.isOperator ',' = false)
    (semicolon : table.isOperator ';' = false) (h : ∀ c ∈ constructs, c.Printable table) :
    table.Program constructs ([.symbol ';'].intercalate (constructs.map Construct.tokens)) := by
  induction constructs with
  | nil => exact .nil
  | cons c constructs ih =>
    have first := h c List.mem_cons_self
    have later := ih fun d mem => h d (List.mem_cons_of_mem _ mem)
    cases constructs with
    | nil =>
      have derived : c.Derives table c.tokens ([] : List Token).head? :=
        first.derives close comma nofun not_continues_none
      simpa using Program.construct derived later
    | cons d constructs =>
      have derived : c.Derives table c.tokens (some (.symbol ';')) :=
        first.derives close comma (by simp) (not_continues_symbol semicolon)
      simpa using Program.construct derived later.separator

/--
Printed constructs with semicolons between them are read back as they were, whatever the strengths
of their operators are.
-/
theorem parseText_toTexts (table : OperatorTable) (constructs : List Construct)
    (close : table.isOperator ')' = false) (comma : table.isOperator ',' = false)
    (semicolon : table.isOperator ';' = false) (h : ∀ c ∈ constructs, c.Printable table) :
    parseText table (String.intercalate ";" (constructs.map Construct.toText)) =
      .ok constructs := by
  have program := OperatorTable.program_of_printable close comma semicolon h
  rw [parseText, ofText_toTexts h, parseProgram_of_program program]

/-- Even an opening parenthesis may be an operator. -/
theorem parseText_toTexts_nested :
    parseText (OperatorTable.standard.set '(' 5)
      "extern sin(x);def f(x y) ((x * 0.1) < sin((y - x)));f(f(), 2500)" =
      .ok [.external ⟨"sin", ["x"]⟩,
        .definition ⟨⟨"f", ["x", "y"]⟩, .binary '<'
          (.binary '*' (.reference "x") (.number ⟨0x3FB999999999999A⟩))
          (.call "sin" [.binary '-' (.reference "y") (.reference "x")])⟩,
        .expression (.call "f" [.call "f" [], .number ⟨0x40A3880000000000⟩])] := by
  refine (congrArg (parseText _) ?_).trans
    (parseText_toTexts _ _ (by decide) (by decide) (by decide) ?_)
  · decide +kernel
  · simp only [List.forall_mem_cons, List.not_mem_nil, false_implies, implies_true, and_true]
    have x : Expr.Printable (OperatorTable.standard.set '(' 5) (.reference "x") :=
      .reference (by decide)
    have y : Expr.Printable (OperatorTable.standard.set '(' 5) (.reference "y") :=
      .reference (by decide)
    refine ⟨.external ⟨by decide, by decide⟩, .definition ⟨by decide, by decide⟩ ?_, .expression ?_⟩
    · refine .binary (by decide) (by decide) (by decide) ?_ (.call (by decide) ?_)
      · exact .binary (by decide) (by decide) (by decide) x (.number (by decide) (by decide))
      · simpa using .binary (by decide) (by decide) (by decide) y x
    · refine .call (by decide) ?_
      simpa using ⟨.call (by decide) (by simp), .number (by decide) (by decide)⟩

end Formula
