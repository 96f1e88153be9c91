import Formula.Proofs.Grammar.Soundness

/-! # What is derived is read

Reading finds the derivation of a phrase: it succeeds with the value of the phrase, and
leaves what follows. Each way of reading therefore succeeds just where there is a
derivation.
-/

namespace Formula

theorem Token.after?_eq_none_iff {c : Char} {tokens : List Token} :
    after? c tokens = none ↔ tokens.head? ≠ some (.symbol c) := by
  cases after : after? c tokens with
  | none =>
    refine iff_of_true rfl fun head => ?_
    obtain ⟨rest, rfl⟩ := List.head?_eq_some_iff.mp head
    simp at after
  | some rest =>
    obtain rfl := after?_eq_some.mp after
    simp

theorem OperatorTable.Derives.primary_ne_nil {table : OperatorTable} {e : Expr}
    {tokens : List Token} {next : Option Token} (h : table.Derives (.primary e) tokens next) :
    tokens ≠ [] := by
  cases h <;> exact List.cons_ne_nil _ _

namespace Expr

variable {table : OperatorTable} {tokens : List Token}

theorem after?_of_parseArguments {args : List Expr} {rest : List Token}
    (h : parseArguments table tokens = .ok args rest) : Token.after? ')' tokens = none := by
  rw [Token.after?_eq_none_iff]
  intro head
  obtain ⟨more, rfl⟩ := List.head?_eq_some_iff.mp head
  rw [parseArguments_eq, parse_eq, parsePrimary_symbol table (by decide)] at h
  cases h

def ReadsPrimary (table : OperatorTable) (tokens : List Token) : Prop :=
  ∀ e rest, table.Derives (.primary e) tokens rest.head? →
    parsePrimary table (tokens ++ rest) = .ok e rest

def ReadsExpression (table : OperatorTable) (tokens : List Token) : Prop :=
  ∀ e rest, table.Derives (.expression e) tokens rest.head? →
    parse table (tokens ++ rest) = .ok e rest

def ReadsArguments (table : OperatorTable) (tokens : List Token) : Prop :=
  ∀ args rest, table.Derives (.arguments args) tokens (some (.symbol ')')) →
    parseArguments table (tokens ++ .symbol ')' :: rest) = .ok args rest

/-- Of a chain of operations, those that the bound admits are read, and the others are left. -/
def ReadsOperations (table : OperatorTable) (tokens : List Token) : Prop :=
  ∀ ops rest lhs bound, 0 ≤ bound → table.Derives (.operations ops) tokens rest.head? →
    table.nextStrength rest < bound → ∃ e ops' tokens',
      parseOperators table bound lhs (tokens ++ rest) = .ok e (tokens' ++ rest) ∧
      table.Derives (.operations ops') tokens' rest.head? ∧
      table.Climbs (bound ≤ ·) lhs ops e ops'

theorem readsPrimary_of
    (he : ∀ taken, taken.length < tokens.length → ReadsExpression table taken)
    (ha : ∀ taken, taken.length < tokens.length → ReadsArguments table taken) :
    ReadsPrimary table tokens := by
  intro e rest h
  cases h with
  | number value => exact parsePrimary_number table value rest
  | reference name plain =>
    rw [List.singleton_append, parsePrimary_identifier, Token.after?_eq_none_iff.mpr plain]
  | callEmpty callee => simp [parsePrimary_identifier]
  | @call callee _ args taken derived =>
    have arguments := ha taken (by grind) args rest derived
    simp [parsePrimary_identifier, after?_of_parseArguments arguments, arguments]
  | @parenthesized _ _ taken derived =>
    have inner := he taken (by grind) e (.symbol ')' :: rest) derived
    simp [parsePrimary_parenthesis, inner]

theorem parseTighter_reads {taken rest : List Token} {ops : List (Char × Expr)} {s : Int32}
    (ho : ReadsOperations table taken) (hs : 0 ≤ s) (operand : Expr)
    (h : table.Derives (.operations ops) taken rest.head?)
    (stops : table.nextStrength rest ≤ s) : ∃ e ops' taken',
      parseTighter table s operand (taken ++ rest) = .ok e (taken' ++ rest) ∧
      table.Derives (.operations ops') taken' rest.head? ∧
      table.Climbs (s < ·) operand ops e ops' := by
  unfold parseTighter
  split
  next tighter =>
    have next_bound : (fun t => s + 1 ≤ t) = (fun t => s < t) :=
      funext fun t => propext (OperatorTable.add_one_le_iff tighter t)
    rw [← next_bound]
    exact ho ops rest operand (s + 1) (by grind) h (by grind)
  next loose =>
    refine ⟨operand, ops, taken, rfl, h, .stop operand fun o head => ?_⟩
    rwa [h.nextStrength_eq head] at loose

theorem readsOperations_of
    (hp : ∀ taken, taken.length < tokens.length → ReadsPrimary table taken)
    (ho : ∀ taken, taken.length < tokens.length → ReadsOperations table taken) :
    ReadsOperations table tokens := by
  intro ops rest lhs bound hb h ends
  cases h with
  | noOperation =>
    exact ⟨lhs, [], [], parseOperators_of_nextStrength_lt ends lhs, .noOperation _, .nil lhs⟩
  | @operation op operand ops taken more _ is primary operations =>
    by_cases stops : table.nextStrength (.symbol op :: (taken ++ more) ++ rest) < bound
    · have whole := OperatorTable.Derives.operation is primary operations
      refine ⟨lhs, _, _, parseOperators_of_nextStrength_lt stops lhs, whole, .stop lhs ?_⟩
      intro o head
      rw [← whole.nextStrength_eq head]
      exact Int32.not_le.mpr stops
    have goes : bound ≤ table.strength op := Int32.not_lt.mp stops
    rw [← List.head?_append] at primary
    -- The operand takes what binds tighter, and the loop goes on behind it.
    obtain ⟨rhs, ops', more', reads, operations', inner⟩ :=
      parseTighter_reads (ho more (by grind)) (Int32.le_trans hb goes) operand operations
        (Int32.le_of_lt (Int32.lt_of_lt_of_le ends goes))
    have more'_le : more'.length ≤ more.length := by
      have le := length_parseTighter_le table (table.strength op) operand (more ++ rest)
      simpa [reads] using le
    obtain ⟨e, last, tokens', onward, operations'', outer⟩ :=
      ho more' (by grind) ops' rest (.binary op lhs rhs) bound hb operations' ends
    refine ⟨e, last, tokens', ?_, operations'', .cons goes
      (fun s hs => Int32.le_of_lt (Int32.lt_of_le_of_lt goes hs)) inner outer⟩
    have first := hp taken (by grind) operand (more ++ rest) primary
    simp [parseOperators_of_le goes, first, reads, onward]

theorem readsExpression_of
    (hp : ∀ taken, taken.length ≤ tokens.length → ReadsPrimary table taken)
    (ho : ∀ taken, taken.length < tokens.length → ReadsOperations table taken) :
    ReadsExpression table tokens := by
  intro e rest h
  cases h with
  | @expression first _ ops taken more _ primary operations ends folds =>
    have taken_pos := List.length_pos_iff.mpr primary.primary_ne_nil
    rw [← List.head?_append] at primary
    have stops : table.nextStrength rest < 0 := by
      rw [OperatorTable.nextStrength_of_not_continues ends]
      decide
    obtain ⟨e', left, more', reads, operations', climbs⟩ :=
      ho more (by grind) ops rest first 0 (by decide) operations stops
    -- From 0 on every operator is admitted, so none is left.
    obtain rfl : left = [] := by
      cases operations' with
      | noOperation => rfl
      | operation is =>
        cases climbs with
        | intro _ _ lower =>
          exact (lower _ rfl (Int32.le_of_lt (OperatorTable.isOperator_iff.mp is))).elim
    cases operations'
    obtain rfl := folds.unique climbs.folds
    have operand := hp taken (by simp) first (more ++ rest) primary
    simp [parse_eq, operand, reads]

theorem readsArguments_of
    (he : ∀ taken, taken.length ≤ tokens.length → ReadsExpression table taken)
    (ha : ∀ taken, taken.length < tokens.length → ReadsArguments table taken) :
    ReadsArguments table tokens := by
  intro args rest h
  cases h with
  | @lastArgument arg _ _ derived =>
    have last := he tokens (Nat.le_refl _) arg (.symbol ')' :: rest) derived
    rw [parseArguments_eq, last]
    simp
  | @argument arg args taken more _ derived derived' =>
    have first := he taken (by simp) arg (.symbol ',' :: (more ++ .symbol ')' :: rest)) derived
    have others := ha more (by grind) args rest derived'
    have unclosed : Token.after? ')' (.symbol ',' :: (more ++ .symbol ')' :: rest)) = none :=
      Token.after?_eq_none_iff.mpr (by simp)
    rw [List.append_assoc, List.cons_append, parseArguments_eq, first]
    simp [others, unclosed]

theorem reads_derived (table : OperatorTable) (tokens : List Token) :
    ReadsPrimary table tokens ∧ ReadsExpression table tokens ∧ ReadsArguments table tokens ∧
      ReadsOperations table tokens := by
  suffices all : ∀ n, ∀ taken : List Token, taken.length < n → ReadsPrimary table taken ∧
      ReadsExpression table taken ∧ ReadsArguments table taken ∧ ReadsOperations table taken from
    all _ tokens (Nat.lt_succ_self _)
  intro n
  induction n with
  | zero => nofun
  | succ n ih =>
    have primary : ∀ taken : List Token, taken.length < n + 1 → ReadsPrimary table taken :=
      fun taken _ => readsPrimary_of (fun t _ => (ih t (by omega)).2.1)
        fun t _ => (ih t (by omega)).2.2.1
    have expression : ∀ taken : List Token, taken.length < n + 1 → ReadsExpression table taken :=
      fun taken _ => readsExpression_of (fun t _ => primary t (by omega))
        fun t _ => (ih t (by omega)).2.2.2
    intro taken _
    exact ⟨primary taken (by omega), expression taken (by omega),
      readsArguments_of (fun t _ => expression t (by omega)) fun t _ => (ih t (by omega)).2.2.1,
      readsOperations_of (fun t _ => primary t (by omega)) fun t _ => (ih t (by omega)).2.2.2⟩

/-- Reading an expression finds its derivation, and there is no other way to read one. -/
theorem parse_eq_ok_iff {e : Expr} {rest : List Token} :
    parse table tokens = .ok e rest ↔
      ∃ taken, tokens = taken ++ rest ∧ table.Derives (.expression e) taken rest.head? := by
  constructor
  · exact (reading_forms table tokens).2.2.2 e rest
  · rintro ⟨taken, rfl, derived⟩
    exact (reads_derived table taken).2.1 e rest derived

end Expr

theorem Token.names_eq_iff {tokens left : List Token} {args : List String} :
    names tokens = (args, left) ↔
      tokens = args.map .identifier ++ left ∧ ∀ name, left.head? ≠ some (.identifier name) := by
  induction args generalizing tokens with
  | nil =>
    rcases tokens with _ | ⟨_ | _ | _ | _ | _, tokens⟩ <;> grind [names]
  | cons arg args ih =>
    rcases tokens with _ | ⟨_ | _ | _ | _ | _, tokens⟩ <;> grind [names]

theorem Prototype.parse_eq_ok_iff {tokens rest : List Token} {p : Prototype} :
    parse tokens = .ok p rest ↔ tokens = p.tokens ++ rest := by
  constructor
  · intro h
    unfold parse at h
    split at h
    next name inner =>
      split at h
      · cases h
      next behind opened =>
        obtain rfl := Token.after?_eq_some.mp opened
        cases named : Token.names behind with
        | mk args left =>
          rw [named] at h
          simp only at h
          split at h
          next outer closed =>
            obtain ⟨rfl, rfl⟩ := Outcome.ok.inj h
            obtain rfl := Token.after?_eq_some.mp closed
            simp [Prototype.tokens, (Token.names_eq_iff.mp named).1]
          · cases h
    · cases h
  · rintro rfl
    have named : Token.names (p.args.map .identifier ++ .symbol ')' :: rest) =
        (p.args, .symbol ')' :: rest) := Token.names_eq_iff.mpr ⟨rfl, by simp⟩
    simp [Prototype.tokens, parse, named]

theorem Construct.parse_eq_ok_iff {table : OperatorTable} {tokens rest : List Token}
    {c : Construct} :
    parse table tokens = .ok c rest ↔
      ∃ taken, tokens = taken ++ rest ∧ c.Derives table taken rest.head? := by
  constructor
  · intro h
    unfold parse at h
    split at h
    next inner =>
      obtain ⟨d, hd, rfl⟩ := Outcome.map_eq_ok.mp h
      obtain ⟨p, left, hp, hb⟩ := Outcome.andThen_eq_ok.mp hd
      obtain ⟨body, he, rfl⟩ := Outcome.map_eq_ok.mp hb
      obtain rfl := Prototype.parse_eq_ok_iff.mp hp
      obtain ⟨taken, rfl, derived⟩ := Expr.parse_eq_ok_iff.mp he
      exact ⟨_, by simp, .definition p derived⟩
    next inner =>
      obtain ⟨p, hp, rfl⟩ := Outcome.map_eq_ok.mp h
      obtain rfl := Prototype.parse_eq_ok_iff.mp hp
      exact ⟨_, by simp, .external p _⟩
    · obtain ⟨e, he, rfl⟩ := Outcome.map_eq_ok.mp h
      obtain ⟨taken, rfl, derived⟩ := Expr.parse_eq_ok_iff.mp he
      exact ⟨taken, rfl, .expression derived⟩
  · rintro ⟨taken, rfl, derived⟩
    cases derived with
    | external p =>
      have prototype : Prototype.parse (p.tokens ++ rest) = .ok p rest :=
        Prototype.parse_eq_ok_iff.mpr rfl
      simp [parse, Prototype.parseExternal, prototype]
    | @definition p body tokens _ derived =>
      have prototype : Prototype.parse (p.tokens ++ (tokens ++ rest)) = .ok p (tokens ++ rest) :=
        Prototype.parse_eq_ok_iff.mpr rfl
      have expression := Expr.parse_eq_ok_iff.mpr ⟨tokens, rfl, derived⟩
      simp [parse, Definition.parse, prototype, expression]
    | expression derived =>
      have expression := Expr.parse_eq_ok_iff.mpr ⟨taken, rfl, derived⟩
      unfold parse
      split
      next eq => simp [eq, Expr.parse_eq] at expression
      next eq => simp [eq, Expr.parse_eq] at expression
      · rw [expression, Outcome.map_ok]

end Formula
