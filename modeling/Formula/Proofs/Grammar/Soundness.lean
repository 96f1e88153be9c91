import Formula.Grammar.Program
import Formula.Proofs.Grammar.Derivation

/-! # What is read is derived

A phrase that was read took the tokens of a derivation from the front, and the derivation
holds for the token that is left in front. Operators are taken as long as they bind
tightly enough, and are folded as their chain is.
-/

namespace Formula

namespace OperatorTable

variable {table : OperatorTable}

theorem Derives.operations_append {ops more : List (Char × Expr)} {tokens tokens' : List Token}
    {next : Option Token} (h : table.Derives (.operations ops) tokens (tokens'.head?.or next))
    (h' : table.Derives (.operations more) tokens' next) :
    table.Derives (.operations (ops ++ more)) (tokens ++ tokens') next := by
  induction ops generalizing tokens with
  | nil =>
    cases h
    exact h'
  | cons o ops ih =>
    cases h with
    | @operation op operand _ taken tail _ is primary rest =>
      have joined := Derives.operation is (by simpa [Option.or_assoc] using primary) (ih rest)
      simpa using joined

theorem Derives.head?_operations {ops : List (Char × Expr)} {tokens : List Token}
    {next : Option Token} (h : table.Derives (.operations ops) tokens next) :
    tokens.head? = ops.head?.map fun o => .symbol o.1 := by
  cases h <;> rfl

theorem Derives.nextStrength_eq {o : Char × Expr} {ops : List (Char × Expr)}
    {tokens rest : List Token} {next : Option Token}
    (h : table.Derives (.operations ops) tokens next) (ho : ops.head? = some o) :
    table.nextStrength (tokens ++ rest) = table.strength o.1 := by
  have head := h.head?_operations
  rw [ho] at head
  obtain ⟨more, rfl⟩ := List.head?_eq_some_iff.mp head
  rfl

end OperatorTable

/-- Where reading succeeds, the tokens it took form the phrase of the value. -/
def Parsed.Forms {α : Type} (table : OperatorTable) (phrase : α → Phrase) (parsed : Parsed α)
    (tokens : List Token) : Prop :=
  ∀ value rest, parsed = .ok value rest →
    ∃ taken, tokens = taken ++ rest ∧ table.Derives (phrase value) taken rest.head?

namespace Expr

variable {table : OperatorTable} {tokens : List Token}

def FormsArguments (table : OperatorTable) (tokens : List Token) : Prop :=
  ∀ args rest, parseArguments table tokens = .ok args rest →
    ∃ taken, tokens = taken ++ .symbol ')' :: rest ∧
      table.Derives (.arguments args) taken (some (.symbol ')'))

/-- Operators that bind as required are taken from the front and folded into `lhs`. -/
def Takes (table : OperatorTable) (binds : Int32 → Prop) (lhs : Expr) (tokens : List Token)
    (e : Expr) (rest : List Token) : Prop :=
  ∃ ops taken, tokens = taken ++ rest ∧ table.Derives (.operations ops) taken rest.head? ∧
    table.Climbs binds lhs ops e [] ∧ ¬ binds (table.nextStrength rest)

theorem Takes.stop {binds : Int32 → Prop} (lhs : Expr)
    (h : ¬ binds (table.nextStrength tokens)) : Takes table binds lhs tokens lhs tokens :=
  ⟨[], [], rfl, .noOperation _, .nil lhs, h⟩

theorem Takes.cons {binds : Int32 → Prop} {op : Char} {lhs operand rhs e : Expr}
    {taken left left' rest : List Token} (is : table.isOperator op = true)
    (here : binds (table.strength op)) (above : ∀ s, table.strength op < s → binds s)
    (primary : table.Derives (.primary operand) taken left.head?)
    (inner : Takes table (table.strength op < ·) operand left rhs left')
    (outer : Takes table binds (.binary op lhs rhs) left' e rest) :
    Takes table binds lhs (.symbol op :: (taken ++ left)) e rest := by
  obtain ⟨ops, span, rfl, operations, climbs, stops⟩ := inner
  obtain ⟨more, span', rfl, operations', climbs', stops'⟩ := outer
  rw [List.head?_append] at operations
  have chain := operations.operations_append operations'
  refine ⟨(op, operand) :: (ops ++ more), .symbol op :: (taken ++ (span ++ span')), by simp,
    .operation is ?_ chain, .cons here above (climbs.append fun o head => ?_) climbs', stops'⟩
  · simpa [Option.or_assoc] using primary
  · rwa [operations'.nextStrength_eq head] at stops

theorem parseTighter_takes {s : Int32} {operand rhs : Expr} {rest : List Token}
    (ho : ∀ lhs bound e rest, 0 ≤ bound → parseOperators table bound lhs tokens = .ok e rest →
      Takes table (bound ≤ ·) lhs tokens e rest) (hs : 0 ≤ s)
    (h : parseTighter table s operand tokens = .ok rhs rest) :
    Takes table (s < ·) operand tokens rhs rest := by
  unfold parseTighter at h
  split at h
  next tighter =>
    -- The next bound does not overflow, because something binds tighter.
    have next_bound : (fun t => s + 1 ≤ t) = (fun t => s < t) :=
      funext fun t => propext (OperatorTable.add_one_le_iff tighter t)
    rw [← next_bound]
    exact ho _ _ _ _ (by grind) h
  next loose =>
    obtain ⟨rfl, rfl⟩ := Outcome.ok.inj h
    exact .stop _ loose

theorem parseOperators_takes
    (hp : ∀ rest, rest.length < tokens.length →
      (parsePrimary table rest).Forms table .primary rest)
    (ho : ∀ rest, rest.length < tokens.length → ∀ lhs bound e last, 0 ≤ bound →
      parseOperators table bound lhs rest = .ok e last → Takes table (bound ≤ ·) lhs rest e last)
    {lhs e : Expr} {bound : Int32} {last : List Token} (hb : 0 ≤ bound)
    (h : parseOperators table bound lhs tokens = .ok e last) :
    Takes table (bound ≤ ·) lhs tokens e last := by
  by_cases stops : table.nextStrength tokens < bound
  · rw [parseOperators_of_nextStrength_lt stops] at h
    obtain ⟨rfl, rfl⟩ := Outcome.ok.inj h
    exact .stop _ (Int32.not_le.mpr stops)
  have goes := Int32.not_lt.mp stops
  match tokens with
  | .symbol op :: rest =>
    rw [parseOperators_of_le goes] at h
    obtain ⟨operand, left, hl, folded⟩ := Outcome.andThen_eq_ok.mp h
    obtain ⟨rhs, left', hl', onward⟩ := Outcome.andThen_eq_ok.mp folded
    have left_lt := length_parsePrimary_lt hl
    obtain ⟨taken, rfl, primary⟩ := hp rest (by simp) _ _ hl
    have inner := parseTighter_takes (ho left (by grind))
      (Int32.le_trans hb goes) hl'
    have left'_le : left'.length ≤ left.length := by
      have le := length_parseTighter_le table (table.strength op) operand left
      rwa [hl'] at le
    have outer := ho left' (by grind) _ _ _ _ hb onward
    exact .cons (OperatorTable.isOperator_of_le hb goes) goes
      (fun s hs => Int32.le_of_lt (Int32.lt_of_le_of_lt goes hs)) primary inner outer
  | [] | .define :: _ | .external :: _ | .identifier _ :: _ | .number _ :: _ =>
    have negative : (0 : Int32) ≤ OperatorTable.notAnOperator := Int32.le_trans hb goes
    exact absurd negative (by decide)

theorem parsePrimary_forms
    (he : ∀ rest, rest.length < tokens.length → (parse table rest).Forms table .expression rest)
    (ha : ∀ rest, rest.length < tokens.length → FormsArguments table rest) :
    (parsePrimary table tokens).Forms table .primary tokens := by
  intro e rest h
  match tokens with
  | [] | .define :: _ | .external :: _ => simp at h
  | .number value :: left =>
    rw [parsePrimary_number] at h
    obtain ⟨rfl, rfl⟩ := Outcome.ok.inj h
    exact ⟨[.number value], rfl, .number _ _⟩
  | .identifier name :: left =>
    rw [parsePrimary_identifier] at h
    split at h
    next plain =>
      obtain ⟨rfl, rfl⟩ := Outcome.ok.inj h
      refine ⟨[.identifier name], rfl, .reference _ fun head => ?_⟩
      obtain ⟨more, rfl⟩ := List.head?_eq_some_iff.mp head
      simp at plain
    next inner opened =>
      obtain rfl := Token.after?_eq_some.mp opened
      split at h
      next outer closed =>
        obtain ⟨rfl, rfl⟩ := Outcome.ok.inj h
        obtain rfl := Token.after?_eq_some.mp closed
        exact ⟨[.identifier name, .symbol '(', .symbol ')'], rfl, .callEmpty _ _⟩
      · obtain ⟨args, hargs, rfl⟩ := Outcome.map_eq_ok.mp h
        obtain ⟨taken, rfl, derived⟩ := ha inner (by grind) _ _ hargs
        exact ⟨_, by simp, .call name _ derived⟩
  | .symbol c :: inner =>
    by_cases hc : c = '('
    · subst hc
      rw [parsePrimary_parenthesis] at h
      obtain ⟨e', left, hl, closing⟩ := Outcome.andThen_eq_ok.mp h
      obtain ⟨taken, rfl, derived⟩ := he inner (by simp) _ _ hl
      split at closing
      next outer closed =>
        obtain ⟨rfl, rfl⟩ := Outcome.ok.inj closing
        obtain rfl := Token.after?_eq_some.mp closed
        exact ⟨_, by simp, .parenthesized _ derived⟩
      · cases closing
    · rw [parsePrimary_symbol table hc] at h
      cases h

theorem parse_forms_of (hp : (parsePrimary table tokens).Forms table .primary tokens)
    (ho : ∀ rest, rest.length < tokens.length → ∀ lhs bound e last, 0 ≤ bound →
      parseOperators table bound lhs rest = .ok e last → Takes table (bound ≤ ·) lhs rest e last) :
    (parse table tokens).Forms table .expression tokens := by
  intro e rest h
  rw [parse_eq] at h
  obtain ⟨first, left, hl, folded⟩ := Outcome.andThen_eq_ok.mp h
  have left_lt := length_parsePrimary_lt hl
  obtain ⟨taken, rfl, primary⟩ := hp _ _ hl
  obtain ⟨ops, span, rfl, operations, climbs, stops⟩ :=
    ho left left_lt first 0 e rest (by decide) folded
  rw [List.head?_append] at primary
  have ends : ¬ table.Continues rest.head? :=
    OperatorTable.not_continues_of_nextStrength_lt (Int32.not_le.mp stops)
  exact ⟨taken ++ span, by simp, .expression primary operations ends climbs.folds⟩

theorem parseArguments_forms (he : (parse table tokens).Forms table .expression tokens)
    (ha : ∀ rest, rest.length < tokens.length → FormsArguments table rest) :
    FormsArguments table tokens := by
  intro args rest h
  rw [parseArguments_eq] at h
  obtain ⟨arg, left, hl, separating⟩ := Outcome.andThen_eq_ok.mp h
  have left_lt := length_parse_lt hl
  obtain ⟨taken, rfl, derived⟩ := he _ _ hl
  split at separating
  next outer closed =>
    obtain ⟨rfl, rfl⟩ := Outcome.ok.inj separating
    obtain rfl := Token.after?_eq_some.mp closed
    exact ⟨taken, rfl, .lastArgument derived⟩
  · split at separating
    next next separated =>
      obtain rfl := Token.after?_eq_some.mp separated
      obtain ⟨args, hargs, rfl⟩ := Outcome.map_eq_ok.mp separating
      obtain ⟨more, rfl, derived'⟩ := ha next (by grind) _ _ hargs
      exact ⟨_, by simp, .argument derived derived'⟩
    · cases separating

/-- Whatever part of an expression is read, it is derived. -/
theorem reading_forms (table : OperatorTable) (tokens : List Token) :
    (parsePrimary table tokens).Forms table .primary tokens ∧ FormsArguments table tokens ∧
      (∀ lhs bound e rest, 0 ≤ bound → parseOperators table bound lhs tokens = .ok e rest →
        Takes table (bound ≤ ·) lhs tokens e rest) ∧
      (parse table tokens).Forms table .expression tokens := by
  induction hn : tokens.length using Nat.strongRecOn generalizing tokens with
  | ind n ih =>
    subst hn
    have shorter := fun rest (h : rest.length < tokens.length) => ih _ h rest rfl
    have primary := parsePrimary_forms (fun rest h => (shorter rest h).2.2.2)
      fun rest h => (shorter rest h).2.1
    have expression := parse_forms_of primary fun rest h => (shorter rest h).2.2.1
    exact ⟨primary, parseArguments_forms expression fun rest h => (shorter rest h).2.1,
      fun _ _ _ _ => parseOperators_takes (fun rest h => (shorter rest h).1)
        fun rest h => (shorter rest h).2.2.1,
      expression⟩

end Expr

end Formula
