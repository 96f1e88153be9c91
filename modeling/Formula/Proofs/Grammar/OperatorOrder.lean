import Formula.Proofs.Grammar.Acceptance
import Formula.Proofs.Grammar.Suffix
import Formula.Proofs.Operator.Strength
import Formula.Session.Basic

/-! # The order of operators

Reading asks of a table which characters are operators, and which of two operators binds
tighter. Tables that answer alike for the symbols of a source read it alike, whatever the
strengths are and whatever else is in the tables.
-/

namespace Formula

namespace OperatorTable

/-- The tables have the same operators among the tokens, and rank them alike. -/
structure Agrees (table other : OperatorTable) (tokens : List Token) : Prop where
  operators (op : Char) : .symbol op ∈ tokens →
    (table.isOperator op = true ↔ other.isOperator op = true)
  order (a b : Char) : .symbol a ∈ tokens → .symbol b ∈ tokens →
    table.isOperator a = true → table.isOperator b = true →
    (table.strength a < table.strength b ↔ other.strength a < other.strength b)

def symbolsOf (tokens : List Token) : List Char :=
  tokens.filterMap fun | .symbol c => some c | _ => none

theorem mem_symbolsOf {tokens : List Token} {op : Char} :
    op ∈ symbolsOf tokens ↔ .symbol op ∈ tokens := by
  rw [symbolsOf, List.mem_filterMap]
  constructor
  · rintro ⟨token, mem, is⟩
    cases token <;> grind
  · exact fun mem => ⟨_, mem, rfl⟩

def agreesB (table other : OperatorTable) (tokens : List Token) : Bool :=
  (symbolsOf tokens).all fun a =>
    table.isOperator a == other.isOperator a &&
      (symbolsOf tokens).all fun b =>
        !table.isOperator a || !table.isOperator b ||
          decide (table.strength a < table.strength b) ==
            decide (other.strength a < other.strength b)

theorem agreesB_iff {table other : OperatorTable} {tokens : List Token} :
    table.agreesB other tokens = true ↔ table.Agrees other tokens := by
  simp only [agreesB, List.all_eq_true, mem_symbolsOf, Bool.and_eq_true, Bool.or_eq_true,
    Bool.not_eq_true', beq_iff_eq, decide_eq_decide]
  constructor
  · intro h
    refine ⟨fun op hop => by rw [(h op hop).1], fun a b ha hb is is' => ?_⟩
    simpa [is, is'] using (h a ha).2 b hb
  · rintro ⟨operators, order⟩ a ha
    refine ⟨Bool.eq_iff_iff.mpr (operators a ha), fun b hb => ?_⟩
    have same := order a b ha hb
    cases is : table.isOperator a <;> cases is' : table.isOperator b <;> simp_all

def AdmitAlike (table other : OperatorTable) (tokens : List Token) (bound bound' : Int32) : Prop :=
  ∀ op, .symbol op ∈ tokens → (bound ≤ table.strength op ↔ bound' ≤ other.strength op)

namespace Agrees

variable {table other : OperatorTable} {source tokens : List Token} {op : Char}
variable (agrees : table.Agrees other source)
include agrees

/-- A symbol that is no operator ranks below all operators, and above nothing. -/
theorem strength_lt_iff {a b : Char} (ha : .symbol a ∈ source) (hb : .symbol b ∈ source) :
    table.strength a < table.strength b ↔ other.strength a < other.strength b := by
  by_cases second : table.isOperator b = true
  · have second' := (agrees.operators b hb).mp second
    by_cases first : table.isOperator a = true
    · exact agrees.order a b ha hb first second
    · have first' : ¬ other.isOperator a = true := fun is => first ((agrees.operators a ha).mpr is)
      have below : notAnOperator < 0 := by decide
      rw [strength_of_not_isOperator first, strength_of_not_isOperator first']
      exact iff_of_true (Int32.lt_trans below (isOperator_iff.mp second))
        (Int32.lt_trans below (isOperator_iff.mp second'))
  · have second' : ¬ other.isOperator b = true := fun is => second ((agrees.operators b hb).mpr is)
    rw [strength_of_not_isOperator second, strength_of_not_isOperator second']
    exact iff_of_false (table.not_strength_lt_notAnOperator a)
      (other.not_strength_lt_notAnOperator a)

theorem lt_nextStrength_iff (hop : .symbol op ∈ source) (sub : tokens ⊆ source) :
    table.strength op < table.nextStrength tokens ↔
      other.strength op < other.nextStrength tokens := by
  match tokens with
  | .symbol b :: rest =>
    rw [nextStrength_symbol, nextStrength_symbol]
    exact agrees.strength_lt_iff hop (sub List.mem_cons_self)
  | [] | .define :: _ | .external :: _ | .identifier _ :: _ | .number _ :: _ =>
    exact iff_of_false (table.not_strength_lt_notAnOperator op)
      (other.not_strength_lt_notAnOperator op)

theorem admitAlike_zero : table.AdmitAlike other source 0 0 := by
  intro op hop
  have from_zero (t : OperatorTable) : 0 ≤ t.strength op ↔ t.isOperator op = true :=
    ⟨isOperator_of_le Int32.le_rfl, fun is => Int32.le_of_lt (isOperator_iff.mp is)⟩
  rw [from_zero, from_zero]
  exact agrees.operators op hop

/-- Behind two operators that agree, the bounds of the operand agree; neither overflows. -/
theorem admitAlike_add_one (hop : .symbol op ∈ source) {s s' : Int32}
    (tighter : table.strength op < s) (tighter' : other.strength op < s') :
    table.AdmitAlike other source (table.strength op + 1) (other.strength op + 1) := by
  intro b hb
  rw [add_one_le_iff tighter, add_one_le_iff tighter']
  exact agrees.strength_lt_iff hop hb

end Agrees

end OperatorTable

namespace Expr

variable {table other : OperatorTable} {source tokens : List Token}

structure ReadAlike (table other : OperatorTable) (source tokens : List Token) : Prop where
  primary : parsePrimary table tokens = parsePrimary other tokens
  arguments : parseArguments table tokens = parseArguments other tokens
  operators (bound bound' : Int32) (lhs : Expr) : table.AdmitAlike other source bound bound' →
    parseOperators table bound lhs tokens = parseOperators other bound' lhs tokens
  expression : parse table tokens = parse other tokens

theorem parsePrimary_congr
    (shorter : ∀ rest, rest <:+ tokens → rest.length < tokens.length →
      ReadAlike table other source rest) :
    parsePrimary table tokens = parsePrimary other tokens := by
  match tokens with
  | [] | .define :: _ | .external :: _ | .number _ :: _ => simp
  | .identifier name :: rest =>
    rw [parsePrimary_identifier, parsePrimary_identifier]
    split
    · rfl
    next inner opened =>
      obtain rfl := Token.after?_eq_some.mp opened
      have behind : inner <:+ .identifier name :: .symbol '(' :: inner :=
        (List.suffix_cons _ inner).trans (List.suffix_cons _ _)
      rw [(shorter inner behind (by grind)).arguments]
  | .symbol c :: inner =>
    by_cases hc : c = '('
    · subst hc
      rw [parsePrimary_parenthesis, parsePrimary_parenthesis,
        (shorter inner (List.suffix_cons _ inner) (by simp)).expression]
    · rw [parsePrimary_symbol table hc, parsePrimary_symbol other hc]

theorem parseTighter_congr (agrees : table.Agrees other source) {op : Char}
    (hop : .symbol op ∈ source) (sub : tokens ⊆ source)
    (alike : ReadAlike table other source tokens) (operand : Expr) :
    parseTighter table (table.strength op) operand tokens =
      parseTighter other (other.strength op) operand tokens := by
  have same := agrees.lt_nextStrength_iff hop sub
  unfold parseTighter
  by_cases tighter : table.strength op < table.nextStrength tokens
  · have tighter' := same.mp tighter
    rw [if_pos tighter, if_pos tighter']
    exact alike.operators _ _ operand (agrees.admitAlike_add_one hop tighter tighter')
  · rw [if_neg tighter, if_neg fun tighter' => tighter (same.mpr tighter')]

theorem parseOperators_congr (agrees : table.Agrees other source) (sub : tokens ⊆ source)
    (shorter : ∀ rest, rest <:+ tokens → rest.length < tokens.length →
      ReadAlike table other source rest)
    {bound bound' : Int32} (admits : table.AdmitAlike other source bound bound') (lhs : Expr) :
    parseOperators table bound lhs tokens = parseOperators other bound' lhs tokens := by
  match tokens with
  | .symbol op :: rest =>
    have hop : .symbol op ∈ source := sub List.mem_cons_self
    by_cases goes : bound ≤ table.strength op
    · have goes' := (admits op hop).mp goes
      have behind {left : List Token} (leaves : left <:+ rest) : left <:+ .symbol op :: rest :=
        List.suffix_cons_iff.mpr (.inr leaves)
      rw [parseOperators_of_le goes, parseOperators_of_le goes',
        (shorter rest (behind List.suffix_rfl) (Nat.lt_succ_self _)).primary]
      refine Outcome.andThen_congr fun operand left first => ?_
      have left_suffix := (leaves_suffix other rest).1.suffix_of_ok first
      have left_short : left.length < (Token.symbol op :: rest).length :=
        Nat.lt_succ_of_le left_suffix.length_le
      have left_sub : left ⊆ source := fun _ h => sub ((behind left_suffix).subset h)
      have alike := shorter left (behind left_suffix) left_short
      rw [parseTighter_congr agrees hop left_sub alike operand]
      refine Outcome.andThen_congr fun rhs last folded => ?_
      have last_suffix :=
        (parseTighter_leaves (leaves_suffix other left).2.2.1 _ operand).suffix_of_ok folded
      have last_short : last.length < (Token.symbol op :: rest).length :=
        Nat.lt_of_le_of_lt last_suffix.length_le left_short
      have last_behind := behind (last_suffix.trans left_suffix)
      exact (shorter last last_behind last_short).operators bound bound' _ admits
    · have stops : table.nextStrength (.symbol op :: rest) < bound := Int32.not_le.mp goes
      have stops' : other.nextStrength (.symbol op :: rest) < bound' :=
        Int32.not_le.mp fun goes' => goes ((admits op hop).mpr goes')
      rw [parseOperators_of_nextStrength_lt stops, parseOperators_of_nextStrength_lt stops']
  | [] | .define :: _ | .external :: _ | .identifier _ :: _ | .number _ :: _ =>
    rw [parseOperators_of_not_symbol _ _ _ (by simp), parseOperators_of_not_symbol _ _ _ (by simp)]

theorem parse_congr (agrees : table.Agrees other source)
    (primary : parsePrimary table tokens = parsePrimary other tokens)
    (shorter : ∀ rest, rest <:+ tokens → rest.length < tokens.length →
      ReadAlike table other source rest) :
    parse table tokens = parse other tokens := by
  rw [parse_eq, parse_eq, primary]
  refine Outcome.andThen_congr fun first left found => ?_
  have left_suffix := (leaves_suffix other tokens).1.suffix_of_ok found
  exact (shorter left left_suffix (length_parsePrimary_lt found)).operators 0 0 first
    agrees.admitAlike_zero

theorem parseArguments_congr (expression : parse table tokens = parse other tokens)
    (shorter : ∀ rest, rest <:+ tokens → rest.length < tokens.length →
      ReadAlike table other source rest) :
    parseArguments table tokens = parseArguments other tokens := by
  rw [parseArguments_eq, parseArguments_eq, expression]
  refine Outcome.andThen_congr fun arg left found => ?_
  have left_suffix := (parse_leaves other tokens).suffix_of_ok found
  have left_lt := length_parse_lt found
  split
  · rfl
  · split
    next next separated =>
      have next_suffix := Token.suffix_of_after? separated
      have next_lt := Nat.lt_of_le_of_lt next_suffix.length_le left_lt
      rw [(shorter next (next_suffix.trans left_suffix) next_lt).arguments]
    · rfl

theorem readAlike (agrees : table.Agrees other source) (sub : tokens ⊆ source) :
    ReadAlike table other source tokens := by
  induction hn : tokens.length using Nat.strongRecOn generalizing tokens with
  | ind n ih =>
    -- The parts recurse as in `leaves_suffix`, into shorter lists of tokens of the same source.
    subst hn
    have shorter : ∀ rest, rest <:+ tokens → rest.length < tokens.length →
        ReadAlike table other source rest := fun rest suffix lt =>
      ih _ lt (fun _ h => sub (suffix.subset h)) rfl
    have primary := parsePrimary_congr shorter
    have expression := parse_congr agrees primary shorter
    exact ⟨primary, parseArguments_congr expression shorter,
      fun _ _ lhs admits => parseOperators_congr agrees sub shorter admits lhs, expression⟩

end Expr

variable {table other : OperatorTable} {source tokens : List Token}

theorem Definition.parse_congr (agrees : table.Agrees other source) (sub : tokens ⊆ source) :
    parse table tokens = parse other tokens := by
  unfold parse
  split
  next rest =>
    refine Outcome.andThen_congr fun p left found => ?_
    have left_suffix := (Prototype.parse_leaves rest).suffix_of_ok found
    have left_sub : left ⊆ source := fun _ h =>
      sub (List.mem_cons_of_mem _ (left_suffix.subset h))
    rw [(Expr.readAlike agrees left_sub).expression]
  · rfl

theorem Construct.parse_congr (agrees : table.Agrees other source) (sub : tokens ⊆ source) :
    parse table tokens = parse other tokens := by
  unfold parse
  split
  · rw [Definition.parse_congr agrees sub]
  · rfl
  · rw [(Expr.readAlike agrees sub).expression]

theorem Item.all_congr (agrees : table.Agrees other source) (sub : tokens ⊆ source) :
    all table tokens = all other tokens := by
  have next_eq {tokens : List Token} (sub : tokens ⊆ source) :
      next table tokens = next other tokens := by
    unfold next
    rw [Construct.parse_congr agrees sub]
  fun_induction all table tokens with
  | case1 => simp [all]
  | case2 tokens nonempty ih =>
    rw [ih fun _ h => sub ((next_suffix table tokens).subset h), next_eq sub,
      all.eq_def other tokens, dif_neg nonempty]

theorem parseProgram_congr (agrees : table.Agrees other source) (sub : tokens ⊆ source) :
    parseProgram table tokens = parseProgram other tokens := by
  fun_induction parseProgram table tokens with
  | case1 => exact parseProgram_nil.symm
  | case2 tokens _ rest after ih =>
    obtain rfl := Token.after?_eq_some.mp after
    rw [parseProgram_semicolon, ih fun _ h => sub (List.mem_cons_of_mem _ h)]
  | case3 tokens nonempty after c rest parsed ih =>
    have rest_suffix := (Construct.parse_leaves table tokens).suffix_of_ok parsed
    rw [Construct.parse_congr agrees sub] at parsed
    rw [parseProgram_of_parse parsed, ih fun _ h => sub (rest_suffix.subset h)]
  | case4 tokens nonempty after cause rest failed =>
    rw [Construct.parse_congr agrees sub] at failed
    rw [parseProgram_construct nonempty (Token.after?_eq_none_iff.mp after), failed,
      Outcome.andThen_error]

/--
Two tables that have the same operators among the symbols of a source, and rank them alike, read
the same program or find the same error in it; and a session that reads the source, whatever its
target and its sink are, ends the same way and leaves the same target and sink.
-/
theorem OperatorTable.Agrees.reads_alike (table other : OperatorTable) (source : Cursor)
    (agrees : table.Agrees other source.tokens) :
    parseProgram table source.tokens = parseProgram other source.tokens ∧
    (∀ text, Token.ofText text = source.tokens → parseText table text = parseText other text) ∧
    ∀ {σ Value Callable S : Type} [LoweringTarget σ Value Callable] [Sink S]
      (session : Session σ S), session.run table source = session.run other source := by
  have program := parseProgram_congr agrees (List.Subset.refl source.tokens)
  refine ⟨program, fun text same => ?_, fun session => ?_⟩
  · rw [parseText, parseText, same, program]
  · rw [Session.run, Session.run, Item.all_congr agrees (List.Subset.refl source.tokens)]

/-- The other strengths are adjacent or the greatest there is, and one operator more is unused. -/
theorem OperatorTable.Agrees.reads_alike_adjacent :
    standard.Agrees (((((empty.set '<' 1).set '+' 2).set '-' 2).set '*' 2147483647).set '/' 3)
      (Token.ofText "def f(x y) x + y * 2 - x < y; f(1, 2") ∧
    parseText .standard "def f(x y) x + y * 2 - x < y; f(1, 2" =
      parseText (((((empty.set '<' 1).set '+' 2).set '-' 2).set '*' 2147483647).set '/' 3)
        "def f(x y) x + y * 2 - x < y; f(1, 2" := by
  have agrees : standard.Agrees
      (((((empty.set '<' 1).set '+' 2).set '-' 2).set '*' 2147483647).set '/' 3)
      (Token.ofText "def f(x y) x + y * 2 - x < y; f(1, 2") := agreesB_iff.mp (by decide +kernel)
  exact ⟨agrees, (reads_alike _ _ (.ofChars _) agrees).2.1 _ rfl⟩

end Formula
