import Formula.Proofs.Grammar.Acceptance
import Formula.Proofs.Grammar.Suffix
import Formula.Proofs.Session.Writing
import Formula.Ssa.Module

/-! # The turns of a session

A session takes its tokens apart into consecutive segments, one for each turn: a
semicolon, the tokens of a construct, or those of a fault. Which segments these are
depends on the tokens and the table alone. In each turn the session reports on the item,
unless it is a semicolon, and prompts for the next one. What it reports depends on the target:
that a construct was read, its function as text, or why it has none.
-/

namespace Formula

namespace Item

/-- The session takes the segment for the item, if the given tokens follow it. -/
inductive Takes (table : OperatorTable) : Item → List Token → List Token → Prop where
  | separator (rest : List Token) : Takes table .separator [.symbol ';'] rest
  | construct {c : Construct} {segment rest : List Token} :
    (segment ++ rest).head? ≠ some (.symbol ';') →
    Construct.parse table (segment ++ rest) = .ok c rest → Takes table (.construct c) segment rest
  /-- Behind the consumed tokens stands the one at which the error was found, or the end. -/
  | fault {cause : SyntaxError} {consumed left : List Token} : consumed ++ left ≠ [] →
    (consumed ++ left).head? ≠ some (.symbol ';') →
    Construct.parse table (consumed ++ left) = .error cause left →
    Takes table (.fault cause) (consumed ++ left.take 1) (left.drop 1)

/-- The items with their segments, which are the tokens cut into pieces. -/
inductive Cuts (table : OperatorTable) : List (Item × List Token) → List Token → Prop where
  | nil : Cuts table [] []
  | cons {item : Item} {segment rest : List Token} {cuts : List (Item × List Token)} :
    item.Takes table segment rest → Cuts table cuts rest →
    Cuts table ((item, segment) :: cuts) (segment ++ rest)

variable {table : OperatorTable} {item : Item} {segment rest tokens : List Token}
variable {cuts others : List (Item × List Token)}

theorem Takes.ne_nil (h : item.Takes table segment rest) : segment ≠ [] := by
  cases h with
  | separator => exact List.cons_ne_nil _ _
  | construct _ parsed =>
    rintro rfl
    exact Nat.lt_irrefl _ (Construct.length_parse_lt parsed)
  | fault nonempty => simpa using nonempty

theorem Takes.next_eq (h : item.Takes table segment rest) :
    next table (segment ++ rest) = (item, rest) := by
  cases h with
  | separator => simp [next]
  | construct opens parsed => simp [next, Token.after?_eq_none_iff.mpr opens, parsed]
  | @fault cause consumed left _ opens parsed =>
    rw [List.append_assoc, List.take_append_drop]
    simp [next, Token.after?_eq_none_iff.mpr opens, parsed]

theorem Takes.all_eq (h : item.Takes table segment rest) :
    all table (segment ++ rest) = item :: all table rest := by
  rw [all, dif_neg (by simp [h.ne_nil]), h.next_eq]

theorem exists_takes (table : OperatorTable) (nonempty : tokens ≠ []) :
    ∃ segment, tokens = segment ++ (next table tokens).2 ∧
      (next table tokens).1.Takes table segment (next table tokens).2 := by
  cases after : Token.after? ';' tokens with
  | some rest =>
    obtain rfl := Token.after?_eq_some.mp after
    exact ⟨[.symbol ';'], by simp [next], by simpa [next] using .separator rest⟩
  | none =>
    have opens := Token.after?_eq_none_iff.mp after
    have leaves := Construct.parse_leaves table tokens
    cases parsed : Construct.parse table tokens with
    | ok c rest =>
      obtain ⟨segment, rfl⟩ := leaves.suffix_of_ok parsed
      simp only [next, after, parsed]
      exact ⟨segment, rfl, .construct opens parsed⟩
    | error cause left =>
      rw [parsed] at leaves
      obtain ⟨consumed, rfl⟩ := leaves
      simp only [next, after, parsed]
      refine ⟨consumed ++ left.take 1, ?_, ?_⟩
      · rw [← List.drop_one, List.append_assoc, List.take_append_drop]
        rfl
      · rw [← List.drop_one]
        exact .fault nonempty opens parsed

theorem takes_iff :
    item.Takes table segment rest ↔ segment ≠ [] ∧ next table (segment ++ rest) = (item, rest) := by
  refine ⟨fun takes => ⟨takes.ne_nil, takes.next_eq⟩, fun ⟨nonempty, first⟩ => ?_⟩
  obtain ⟨taken, split, takes⟩ :=
    exists_takes table (List.append_ne_nil_of_left_ne_nil nonempty rest)
  rw [first] at split takes
  obtain rfl := List.append_cancel_right split
  exact takes

theorem exists_cuts (table : OperatorTable) (tokens : List Token) :
    ∃ cuts, Cuts table cuts tokens := by
  fun_induction all table tokens with
  | case1 => exact ⟨[], .nil⟩
  | case2 tokens nonempty ih =>
    obtain ⟨cuts, later⟩ := ih
    obtain ⟨segment, split, takes⟩ := exists_takes table nonempty
    have whole := Cuts.cons takes later
    rw [← split] at whole
    exact ⟨_, whole⟩

theorem cuts_nil_iff : Cuts table [] tokens ↔ tokens = [] := by
  constructor
  · rintro ⟨⟩
    rfl
  · rintro rfl
    exact .nil

theorem cuts_cons_iff : Cuts table ((item, segment) :: cuts) tokens ↔
    segment ≠ [] ∧ segment ++ tokens.drop segment.length = tokens ∧
      next table tokens = (item, tokens.drop segment.length) ∧
      Cuts table cuts (tokens.drop segment.length) := by
  constructor
  · rintro (_ | ⟨takes, later⟩)
    rw [List.drop_left]
    exact ⟨takes.ne_nil, rfl, takes.next_eq, later⟩
  · rintro ⟨nonempty, split, first, later⟩
    have takes : item.Takes table segment (tokens.drop segment.length) :=
      takes_iff.mpr ⟨nonempty, by rw [split, first]⟩
    have whole := Cuts.cons takes later
    rwa [split] at whole

instance decidableCuts (table : OperatorTable) :
    ∀ cuts tokens, Decidable (Cuts table cuts tokens)
  | [], _ => decidable_of_iff _ cuts_nil_iff.symm
  | (_, segment) :: cuts, tokens =>
    have := decidableCuts table cuts (tokens.drop segment.length)
    decidable_of_iff _ cuts_cons_iff.symm

theorem Cuts.unique (h : Cuts table cuts tokens) (h' : Cuts table others tokens) :
    others = cuts := by
  induction h generalizing others with
  | nil =>
    generalize empty : ([] : List Token) = tokens at h'
    cases h' with
    | nil => rfl
    | cons takes => simp [takes.ne_nil] at empty
  | @cons item segment rest cuts takes _ ih =>
    generalize split : segment ++ rest = tokens at h'
    cases h' with
    | nil => simp [takes.ne_nil] at split
    | @cons item' segment' rest' cuts' takes' later =>
      have same := takes.next_eq
      rw [split, takes'.next_eq] at same
      obtain ⟨rfl, rfl⟩ := Prod.mk.inj same
      obtain rfl := List.append_cancel_right split
      rw [ih later]

theorem Cuts.flatMap_eq (h : Cuts table cuts tokens) : cuts.flatMap (·.2) = tokens := by
  induction h with
  | nil => rfl
  | cons _ _ ih => rw [List.flatMap_cons, ih]

theorem Cuts.ne_nil (h : Cuts table cuts tokens) : ∀ cut ∈ cuts, cut.2 ≠ [] := by
  induction h with
  | nil => simp
  | cons takes _ ih => simpa using ⟨takes.ne_nil, by simpa using ih⟩

theorem Cuts.length_le (h : Cuts table cuts tokens) : cuts.length ≤ tokens.length := by
  induction h with
  | nil => exact Nat.le_refl _
  | cons takes _ ih =>
    have pos := List.length_pos_iff.mpr takes.ne_nil
    simp only [List.length_cons, List.length_append]
    omega

variable {σ Value Callable : Type} [LoweringTarget σ Value Callable]

open LoweringTarget

/-- From a target to the next one an item is handled, with the report on it. -/
inductive Handled : Item → Option σ → Option String → Option σ → Prop where
  | separator (target : Option σ) : Handled .separator target none target
  | fault (cause : SyntaxError) (target : Option σ) :
    Handled (.fault cause) target (some ("Error: " ++ cause.message ++ "\n")) target
  | parsedDefinition (d : Definition) :
    Handled (.construct (.definition d)) none (some "Parsed a function definition.\n") none
  | parsedExternal (p : Prototype) :
    Handled (.construct (.external p)) none (some "Parsed an extern\n") none
  | parsedExpression (e : Expr) :
    Handled (.construct (.expression e)) none (some "Parsed a top-level expr\n") none
  | definition {d : Definition} {target target' : σ} {callable : Callable} :
    d.lower target = .ok callable target' →
    Handled (.construct (.definition d)) (some target)
      (some ("Read function definition:\n" ++ render target' callable)) (some target')
  | external {p : Prototype} {target target' : σ} {callable : Callable} :
    p.lower target = .ok callable target' →
    Handled (.construct (.external p)) (some target)
      (some ("Read extern: " ++ render target' callable)) (some target')
  /-- The function around an expression is shown and removed. -/
  | expression {e : Expr} {target target' : σ} {callable : Callable} :
    (Definition.anonymous e).lower target = .ok callable target' →
    Handled (.construct (.expression e)) (some target)
      (some ("Read top-level expression:\n" ++ render target' callable))
      (some (erase target' callable))
  | unlowered {c : Construct} {cause : LoweringError} {target target' : σ} :
    c.lower target = .error cause target' →
    Handled (.construct c) (some target) (some ("Error: " ++ cause.message ++ "\n")) (some target')

variable {target target' : Option σ} {report : Option String}

theorem handled_handle (item : Item) (target : Option σ) :
    item.Handled target (item.handle target).1 (item.handle target).2 := by
  rcases item with _ | c | cause
  · exact .separator target
  · rcases target with _ | target
    · cases c with
      | definition d => exact .parsedDefinition d
      | external p => exact .parsedExternal p
      | expression e => exact .parsedExpression e
    · simp only [handle, Construct.lowerAndReport]
      cases lowered : c.lower target with
      | ok callable target' =>
        cases c with
        | definition d => exact .definition lowered
        | external p => exact .external lowered
        | expression e => exact .expression lowered
      | error cause target' => exact .unlowered lowered
  · exact .fault cause target

theorem Handled.handle_eq (h : item.Handled target report target') :
    item.handle target = (report, target') := by
  cases h with
  | separator | fault | parsedDefinition | parsedExternal | parsedExpression => rfl
  | definition lowered | external lowered | expression lowered =>
    simp [handle, Construct.lowerAndReport, Construct.lower, Construct.heading,
      Construct.isTransient, lowered]
  | unlowered failed => simp [handle, Construct.lowerAndReport, failed, errorLine]

theorem Handled.isSome_report (h : item.Handled target report target') :
    report.isSome = true ↔ item ≠ .separator := by
  cases h <;> simp

end Item

structure Turn where
  item : Item
  segment : List Token
  report : Option String

namespace Turn

def cut (turn : Turn) : Item × List Token := (turn.item, turn.segment)

def texts (prompt : String) (turn : Turn) : List String := turn.report.toList ++ [prompt]

end Turn

namespace Session

variable {σ Value Callable S : Type} [LoweringTarget σ Value Callable] [Sink S]

/-- Turn after turn, the session takes the next segment and handles its item. -/
inductive Loops (table : OperatorTable) :
    Session σ S → List Token → List Turn → Session σ S → Prop where
  | done (session : Session σ S) : Loops table session [] [] session
  | turn {session next last : Session σ S} {item : Item} {segment rest : List Token}
      {report : Option String} {turns : List Turn} : item.Takes table segment rest →
    item.Handled session.target report next.target → session.step item = .ok () next →
    Loops table next rest turns last →
    Loops table session (segment ++ rest) (⟨item, segment, report⟩ :: turns) last

variable {table : OperatorTable} {session last : Session σ S} {tokens : List Token}
variable {turns : List Turn}

theorem Loops.steps_eq (h : session.Loops table tokens turns last) :
    session.steps (Item.all table tokens) = .ok () last := by
  induction h with
  | done => rw [Item.all, dif_pos rfl, steps]
  | turn takes _ step _ ih => rw [takes.all_eq, steps, step, Outcome.andThen_ok, ih]

theorem Loops.isSome_report (h : session.Loops table tokens turns last) :
    ∀ turn ∈ turns, turn.report.isSome = true ↔ turn.item ≠ .separator := by
  induction h with
  | done => simp
  | turn _ handled _ _ ih =>
    rintro turn (_ | ⟨_, later⟩)
    · exact handled.isSome_report
    · exact ih turn later

theorem Loops.outputs_eq (h : session.Loops table tokens turns last) (prompt : String) :
    Item.outputs prompt (Item.all table tokens) session.target =
      (turns.flatMap (Turn.texts prompt), last.target) := by
  induction h with
  | done => rw [Item.all, dif_pos rfl, Item.outputs, List.flatMap_nil]
  | turn takes handled _ _ ih =>
    simp [takes.all_eq, Item.outputs, handled.handle_eq, ih, Turn.texts]

theorem Loops.texts_eq {prompted : Session σ S} (begun : session.showPrompt = .ok () prompted)
    (h : prompted.Loops table tokens turns last) (prompt : String) :
    turns.flatMap (Turn.texts prompt) =
      (Item.outputs prompt (Item.all table tokens) session.target).1 := by
  have target := session.target_write session.prompt
  rw [← showPrompt, begun, Outcome.state_ok] at target
  rw [← target, h.outputs_eq prompt]

/-- A session that can always write goes through all pieces, and writes what its turns do. -/
theorem exists_loops {cuts : List (Item × List Token)} (h : Item.Cuts table cuts tokens)
    (session : Session σ S) (writes : Sink.NeverFails session.sink) :
    ∃ turns last, session.Loops table tokens turns last ∧ turns.map Turn.cut = cuts ∧
      Sink.writeAll session.sink (turns.flatMap (Turn.texts session.prompt)) =
        .ok () last.sink ∧ Sink.NeverFails last.sink := by
  induction h generalizing session with
  | nil => exact ⟨[], session, .done session, rfl, rfl, writes⟩
  | @cons item segment rest cuts takes _ ih =>
    let turn : Turn := ⟨item, segment, (item.handle session.target).1⟩
    obtain ⟨sink, written, writes⟩ := writes.writeAll (turn.texts session.prompt)
    obtain ⟨turns, last, loops, cut, later, writes⟩ :=
      ih { session with target := (item.handle session.target).2, sink } writes
    refine ⟨turn :: turns, last, ?_, ?_, ?_, writes⟩
    · exact .turn takes (Item.handled_handle item _) (step_of_writeAll written) loops
    · rw [List.map_cons, cut]
      rfl
    · rw [List.flatMap_cons, Sink.writeAll_append, written]
      exact later

/--
The tokens of a source are cut in one way into pieces, at most one for each token, whatever the
session is. A session that can always write goes through just these pieces, reports once on each
construct and each fault, prompts at the beginning and after each piece, and ends. Each report is
the one that `Item.Handled` gives for the target as it is then.
-/
theorem run_accounts (table : OperatorTable) (source : Cursor) :
    ∃ cuts : List (Item × List Token),
      Item.Cuts table cuts source.tokens ∧
      (∀ others, Item.Cuts table others source.tokens → others = cuts) ∧
      cuts.flatMap (·.2) = source.tokens ∧ (∀ cut ∈ cuts, cut.2 ≠ []) ∧
      cuts.length ≤ source.tokens.length ∧
      ∀ {σ Value Callable S : Type} [LoweringTarget σ Value Callable] [Sink S]
        (session : Session σ S), Sink.NeverFails session.sink →
        ∃ prompted turns last final, session.showPrompt = .ok () prompted ∧
          prompted.Loops table source.tokens turns last ∧ last.dump = .ok () final ∧
          session.run table source = .ok () final ∧ turns.map Turn.cut = cuts ∧
          (∀ turn ∈ turns, turn.report.isSome = true ↔ turn.item ≠ .separator) ∧
          Sink.writeAll session.sink
            (session.prompt :: turns.flatMap (Turn.texts session.prompt)) = .ok () last.sink := by
  obtain ⟨cuts, hcuts⟩ := Item.exists_cuts table source.tokens
  refine ⟨cuts, hcuts, fun _ others => hcuts.unique others, hcuts.flatMap_eq, hcuts.ne_nil,
    hcuts.length_le, ?_⟩
  intro σ Value Callable S _ _ session writes
  obtain ⟨sink, prompted, begun, writes⟩ := session.exists_showPrompt writes
  obtain ⟨turns, last, loops, cut, written, writes⟩ :=
    exists_loops hcuts { session with sink } writes
  obtain ⟨final, dumped⟩ := last.exists_dump writes
  refine ⟨_, turns, last, final, prompted, loops, dumped, ?_, cut, loops.isSome_report, ?_⟩
  · rw [run, prompted, Outcome.andThen_ok, loops.steps_eq, Outcome.andThen_ok, dumped]
  · rw [Sink.writeAll, begun]
    exact written

/-- With and without a target the pieces are the same, and the reports on them differ. -/
theorem run_accounts_alike :
    let source := "def (x) x; extern f(a) f(1"
    let cuts : List (Item × List Token) :=
      [(.fault (.missingFunctionName (some (.symbol '('))), [.define, .symbol '(']),
        (.construct (.expression (.reference "x")), [.identifier "x"]),
        (.fault (.unexpected (some (.symbol ')'))), [.symbol ')']),
        (.construct (.expression (.reference "x")), [.identifier "x"]),
        (.separator, [.symbol ';']),
        (.construct (.external ⟨"f", ["a"]⟩),
          [.external, .identifier "f", .symbol '(', .identifier "a", .symbol ')']),
        (.fault (.badSeparator none),
          [.identifier "f", .symbol '(', .number (Numeral.value ['1'])])]
    let parsed := ["Error: expected function name in prototype, found '('\n", "> ",
      "Parsed a top-level expr\n", "> ",
      "Error: unknown token when expecting an expression, found ')'\n", "> ",
      "Parsed a top-level expr\n", "> ", "> ", "Parsed an extern\n", "> ",
      "Error: expected ')' or ',' in argument list, found end of input\n", "> "]
    let lowered := ["Error: expected function name in prototype, found '('\n", "> ",
      "Error: unknown variable name x\n", "> ",
      "Error: unknown token when expecting an expression, found ')'\n", "> ",
      "Error: unknown variable name x\n", "> ", "> ",
      "Read extern: declare double @f(double %a)\n", "> ",
      "Error: expected ')' or ',' in argument list, found end of input\n", "> "]
    let parsing : Session NoTarget Buffer := ⟨none, .empty none, "> ", false⟩
    let lowering : Session Ssa.Module Buffer := ⟨some (.empty "m"), .empty none, "> ", false⟩
    Sink.NeverFails (Buffer.empty none) ∧ Item.Cuts .standard cuts (Token.ofText source) ∧
    (∃ prompted turns last final, parsing.showPrompt = .ok () prompted ∧
      prompted.Loops .standard (Token.ofText source) turns last ∧ turns.map Turn.cut = cuts ∧
      turns.flatMap (Turn.texts "> ") = parsed ∧
      parsing.run .standard (.ofChars source.toList) = .ok () final ∧
      final.sink.bytes = ("> " ++ String.join parsed).toUTF8) ∧
    ∃ prompted turns last final, lowering.showPrompt = .ok () prompted ∧
      prompted.Loops .standard (Token.ofText source) turns last ∧ turns.map Turn.cut = cuts ∧
      turns.flatMap (Turn.texts "> ") = lowered ∧
      lowering.run .standard (.ofChars source.toList) = .ok () final ∧
      final.sink.bytes = ("> " ++ String.join lowered).toUTF8 := by
  intro source cuts parsed lowered parsing lowering
  have writes : Sink.NeverFails (Buffer.empty none) := Sink.neverFails_buffer rfl
  have cut : Item.Cuts .standard cuts (Token.ofText source) := by decide +kernel
  have told : (Item.outputs "> " (Item.all .standard (Cursor.ofChars source.toList).tokens)
      parsing.target).1 = parsed := by
    decide +kernel
  have told' : (Item.outputs "> " (Item.all .standard (Cursor.ofChars source.toList).tokens)
      lowering.target).1 = lowered := by
    decide +kernel
  obtain ⟨_, -, unique, -, -, -, each⟩ := run_accounts .standard (.ofChars source.toList)
  obtain rfl := unique cuts cut
  refine ⟨writes, cut, ?_, ?_⟩
  · obtain ⟨prompted, turns, last, final, begun, loops, -, run, same, -⟩ := each parsing writes
    have written := run.symm.trans (run_of_unlimited parsing.target ..)
    rw [told, ByteArray.empty_append] at written
    obtain ⟨-, rfl⟩ := Outcome.ok.inj written
    exact ⟨prompted, turns, last, _, begun, loops, same, (loops.texts_eq begun _).trans told,
      run, rfl⟩
  · obtain ⟨prompted, turns, last, final, begun, loops, -, run, same, -⟩ := each lowering writes
    have written := run.symm.trans (run_of_unlimited lowering.target ..)
    rw [told', ByteArray.empty_append] at written
    obtain ⟨-, rfl⟩ := Outcome.ok.inj written
    exact ⟨prompted, turns, last, _, begun, loops, same, (loops.texts_eq begun _).trans told',
      run, rfl⟩

end Session

end Formula
