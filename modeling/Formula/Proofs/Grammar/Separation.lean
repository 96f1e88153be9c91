import Formula.Proofs.Grammar.EarliestError
import Formula.Session.Basic

/-! # Semicolons separate

Where the semicolon is no operator, a construct ends before it as it ends at the end of
input. Tokens that stop nowhere inside a construct are therefore taken apart into the
same items if a semicolon and more tokens follow them.
-/

namespace Formula

variable {table : OperatorTable}

namespace OperatorTable

/-- A token that takes no phrase further. -/
structure Ends (table : OperatorTable) (next : Option Token) : Prop where
  plain : next ≠ some (.symbol '(')
  stops : ¬ table.Continues next

theorem ends_semicolon (h : table.isOperator ';' = false) : table.Ends (some (.symbol ';')) where
  plain := by simp
  stops := by
    rintro ⟨op, same, is⟩
    obtain rfl := Token.symbol.inj (Option.some.inj same)
    simp [h] at is

/-- What a phrase is derived as does not depend on a token behind it that takes it no further. -/
theorem Derives.followed {phrase : Phrase} {tokens : List Token} {next other : Option Token}
    (h : table.Derives phrase tokens next) (ends : table.Ends other) :
    table.Derives phrase tokens other := by
  induction h with
  | number value => exact .number value other
  | reference name => exact .reference name ends.plain
  | callEmpty callee => exact .callEmpty callee other
  | call callee _ args => exact .call callee other args
  | parenthesized _ inner => exact .parenthesized other inner
  | noOperation => exact .noOperation other
  | @operation _ _ _ _ more _ is primary _ ih ih' =>
    -- Behind the operand stands the next operator, or else what follows the whole phrase.
    refine .operation is ?_ ih'
    cases more with
    | nil => exact ih
    | cons => exact primary
  | @expression _ _ _ _ more _ primary _ _ folds ih ih' =>
    refine .expression ?_ ih' ends.stops folds
    cases more with
    | nil => exact ih
    | cons => exact primary
  | lastArgument _ ih => exact .lastArgument ih
  | argument arg _ _ ih => exact .argument arg ih

end OperatorTable

namespace Construct

theorem Derives.followed {c : Construct} {tokens : List Token} {next other : Option Token}
    (h : c.Derives table tokens next) (ends : table.Ends other) : c.Derives table tokens other := by
  cases h with
  | external p => exact .external p other
  | definition p body => exact .definition p (body.followed ends)
  | expression e => exact .expression (e.followed ends)

theorem parse_append_of_ends {tokens more : List Token} {c : Construct}
    (h : parse table tokens = .ok c []) (ends : table.Ends more.head?) :
    parse table (tokens ++ more) = .ok c more := by
  obtain ⟨taken, rfl, derived⟩ := parse_eq_ok_iff.mp h
  rw [List.append_nil]
  exact parse_eq_ok_iff.mpr ⟨taken, rfl, derived.followed ends⟩

end Construct

namespace Item

variable {tokens more : List Token}

/-- No error of these items was found at the end of input. -/
def Complete (items : List Item) : Prop :=
  ∀ cause, .fault cause ∈ items → cause.found ≠ none

theorem next_construct {c : Construct} {rest : List Token}
    (h : tokens.head? ≠ some (.symbol ';')) (parsed : Construct.parse table tokens = .ok c rest) :
    next table tokens = (construct c, rest) := by
  simp only [next, Token.after?_eq_none_iff.mpr h, parsed]

theorem next_fault {cause : SyntaxError} {rest : List Token}
    (h : tokens.head? ≠ some (.symbol ';'))
    (failed : Construct.parse table tokens = .error cause rest) :
    next table tokens = (fault cause, rest.tail) := by
  simp only [next, Token.after?_eq_none_iff.mpr h, failed]

/-- More tokens behind an item change nothing, unless its error was found at the end of input. -/
theorem next_append (nonempty : tokens ≠ []) (ends : table.Ends more.head?)
    (complete : ∀ cause, (next table tokens).1 = .fault cause → cause.found ≠ none) :
    next table (tokens ++ more) =
      ((next table tokens).1, (next table tokens).2 ++ more) := by
  obtain ⟨t, tokens, rfl⟩ := List.exists_cons_of_ne_nil nonempty
  by_cases separator : t = .symbol ';'
  · subst separator
    simp only [next, List.cons_append, Token.after?_symbol]
  have opens : ((t :: tokens) ++ more).head? ≠ some (.symbol ';') := by simpa using separator
  have opens' : (t :: tokens).head? ≠ some (.symbol ';') := by simpa using separator
  generalize whole : t :: tokens = all at *
  cases Construct.parse_settles table all with
  | @ok taken rest c repeats =>
    have parsed := repeats rest (.inl rfl)
    rw [next_construct opens' parsed]
    cases rest with
    | nil =>
      rw [next_construct opens (Construct.parse_append_of_ends parsed ends), List.nil_append]
    | cons u rest =>
      have parsed' := repeats (u :: rest ++ more) (.inl rfl)
      rw [← List.append_assoc] at parsed'
      exact next_construct opens parsed'
  | @error taken rest cause found repeats _ =>
    have failed := repeats rest rfl
    rw [next_fault opens' failed] at complete ⊢
    cases rest with
    | nil => exact absurd found (complete cause rfl)
    | cons u rest =>
      have failed' := repeats (u :: rest ++ more) rfl
      rw [← List.append_assoc] at failed'
      exact next_fault opens failed'

theorem all_append (ends : table.Ends more.head?) (complete : Complete (all table tokens)) :
    all table (tokens ++ more) = all table tokens ++ all table more := by
  fun_induction all table tokens with
  | case1 => rfl
  | case2 tokens nonempty ih =>
    have following := next_append nonempty ends fun cause same =>
      complete cause (same ▸ List.mem_cons_self)
    have filled : tokens ++ more ≠ [] := by simp [nonempty]
    rw [all, dif_neg filled, following, List.cons_append,
      ih fun cause later => complete cause (List.mem_cons_of_mem _ later)]

theorem all_semicolon (tokens : List Token) :
    all table (.symbol ';' :: tokens) = .separator :: all table tokens := by
  rw [all, dif_neg (List.cons_ne_nil _ _)]
  simp only [next, Token.after?_symbol]

end Item

end Formula
