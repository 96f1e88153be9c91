import Formula.Proofs.Grammar.Separation
import Formula.Proofs.Session.Writing
import Formula.Proofs.Token.Seam
import Formula.Ssa.Module

/-! # Splitting a session

Two sources that are run one after another can be joined to one: a line break ends what
the first one leaves open, and a semicolon stands for the second start. The prompt that
follows the semicolon is the one with which the second run would begin.
-/

namespace Formula

theorem Token.ofText_join (first second : String) :
    ofText (first ++ "\n;" ++ second) = ofText first ++ .symbol ';' :: ofText second := by
  have joined : (first ++ "\n;" ++ second).toList =
      first.toList ++ '\n' :: ';' :: second.toList := by
    simp
  rw [ofText_eq, joined, ofChars_append_line, ofChars_symbol (by decide)]
  rfl

theorem Item.all_join {table : OperatorTable} (free : table.isOperator ';' = false)
    {first : String} (complete : Complete (all table (Token.ofText first))) (second : String) :
    all table (Token.ofText (first ++ "\n;" ++ second)) =
      all table (Token.ofText first) ++ .separator :: all table (Token.ofText second) := by
  have ends : table.Ends (Token.symbol ';' :: Token.ofText second).head? :=
    OperatorTable.ends_semicolon free
  rw [Token.ofText_join, all_append ends complete, all_semicolon]

namespace Session

variable {σ Value Callable S : Type} [LoweringTarget σ Value Callable] [Sink S]

theorem dumpsModule_write (session : Session σ S) (text : String) :
    (session.write text).state.dumpsModule = session.dumpsModule := by
  unfold write
  split <;> rfl

theorem dumpsModule_step (session : Session σ S) (item : Item) :
    (session.step item).state.dumpsModule = session.dumpsModule := by
  unfold step
  simp only
  split
  · exact dumpsModule_write _ _
  · rw [Outcome.state_andThen_congr dumpsModule]
    · exact dumpsModule_write _ _
    · exact fun _ session => session.dumpsModule_write _

theorem dumpsModule_steps (session : Session σ S) (items : List Item) :
    (session.steps items).state.dumpsModule = session.dumpsModule := by
  induction items generalizing session with
  | nil => rfl
  | cons item rest ih =>
    rw [steps, Outcome.state_andThen_congr dumpsModule]
    · exact session.dumpsModule_step item
    · exact fun _ next => ih next

theorem steps_append (session : Session σ S) (items more : List Item) :
    session.steps (items ++ more) =
      (session.steps items).andThen fun _ session => session.steps more := by
  induction items generalizing session with
  | nil => rfl
  | cons item rest ih =>
    rw [List.cons_append, steps, steps]
    cases session.step item with
    | ok _ next => exact ih next
    | error => rfl

theorem step_separator (session : Session σ S) : session.step .separator = session.showPrompt := rfl

theorem dump_of_quiet {session : Session σ S} (quiet : session.dumpsModule = false) :
    session.dump = .ok () session := by
  rw [dump, quiet]

theorem run_eq_steps {session : Session σ S} (quiet : session.dumpsModule = false)
    (table : OperatorTable) (source : Cursor) :
    session.run table source = session.showPrompt.andThen fun _ session =>
      session.steps (Item.all table source.tokens) := by
  have prompted_quiet := session.dumpsModule_write session.prompt
  rw [run, showPrompt]
  cases prompted : session.write session.prompt with
  | error => rfl
  | ok _ begun =>
    rw [prompted, Outcome.state_ok, quiet] at prompted_quiet
    have handled_quiet := begun.dumpsModule_steps (Item.all table source.tokens)
    rw [Outcome.andThen_ok, Outcome.andThen_ok]
    cases handled : begun.steps (Item.all table source.tokens) with
    | error => rfl
    | ok _ last =>
      rw [handled, Outcome.state_ok, prompted_quiet] at handled_quiet
      exact dump_of_quiet handled_quiet

/-- One run over joined sources is a run over the first and then one over the second. -/
theorem run_join_eq {table : OperatorTable} (free : table.isOperator ';' = false)
    {first : String} (complete : Item.Complete (Item.all table (Token.ofText first)))
    (second : String) {session : Session σ S} (quiet : session.dumpsModule = false) :
    session.run table (.ofChars (first ++ "\n;" ++ second).toList) =
      (session.run table (.ofChars first.toList)).andThen fun _ middle =>
        middle.run table (.ofChars second.toList) := by
  rw [run_eq_steps quiet, run_eq_steps quiet]
  have items : Item.all table (Cursor.ofChars (first ++ "\n;" ++ second).toList).tokens =
      Item.all table (Token.ofText first) ++ .separator :: Item.all table (Token.ofText second) :=
    Item.all_join free complete second
  have prompted_quiet := session.dumpsModule_write session.prompt
  rw [items, showPrompt]
  cases prompted : session.write session.prompt with
  | error => rfl
  | ok _ begun =>
    rw [prompted, Outcome.state_ok, quiet] at prompted_quiet
    have handled_quiet := begun.dumpsModule_steps (Item.all table (Token.ofText first))
    rw [Outcome.andThen_ok, Outcome.andThen_ok, steps_append]
    change _ = (begun.steps (Item.all table (Token.ofText first))).andThen _
    cases handled : begun.steps (Item.all table (Token.ofText first)) with
    | error => rfl
    | ok _ middle =>
      rw [handled, Outcome.state_ok, prompted_quiet] at handled_quiet
      -- The separator does what the second run begins with: it prompts.
      rw [Outcome.andThen_ok, Outcome.andThen_ok, run_eq_steps handled_quiet, steps,
        step_separator]
      rfl

theorem exists_quiet_run (session : Session σ S) (quiet : session.dumpsModule = false)
    (writes : Sink.NeverFails session.sink) (table : OperatorTable) (source : Cursor) :
    ∃ last, session.run table source = .ok () last ∧ last.dumpsModule = false ∧
      Sink.NeverFails last.sink := by
  obtain ⟨_, run, -, writes⟩ := session.exists_run quiet writes table source
  exact ⟨_, run, quiet, writes⟩

/--
Where the semicolon is no operator and the first source breaks off inside no construct, two runs of
a session that can always write leave what one run of the sources leaves that are joined by a line
break and a semicolon: the same target, and the same sink after the same texts.
-/
theorem run_join (table : OperatorTable) (free : table.isOperator ';' = false)
    (first second : String) (complete : Item.Complete (Item.all table (Token.ofText first)))
    (session : Session σ S) (quiet : session.dumpsModule = false)
    (writes : Sink.NeverFails session.sink) :
    ∃ middle last, session.run table (.ofChars first.toList) = .ok () middle ∧
      middle.run table (.ofChars second.toList) = .ok () last ∧
      session.run table (.ofChars (first ++ "\n;" ++ second).toList) = .ok () last := by
  obtain ⟨middle, run, quiet', writes'⟩ :=
    session.exists_quiet_run quiet writes table (.ofChars first.toList)
  obtain ⟨last, run', -, -⟩ := middle.exists_quiet_run quiet' writes' table (.ofChars second.toList)
  refine ⟨middle, last, run, run', ?_⟩
  rw [run_join_eq free complete second quiet, run, Outcome.andThen_ok, run']

/-- A comment is open and a construct is about to end where the second source begins. -/
theorem run_join_comment :
    let first := ") def f(x) x * 2 f(3) # three"
    let second := "+ f(4"
    let session : Session Ssa.Module Buffer := ⟨some (.empty "m"), .empty none, "> ", false⟩
    Item.Complete (Item.all .standard (Token.ofText first)) ∧
    ∃ middle last, session.run .standard (.ofChars first.toList) = .ok () middle ∧
      middle.run .standard (.ofChars second.toList) = .ok () last ∧
      session.run .standard (.ofChars (first ++ "\n;" ++ second).toList) = .ok () last ∧
      last.sink.bytes = ("> Error: unknown token when expecting an expression, found ')'\n" ++
        "> Read function definition:\ndefine double @f(double %x) \x7b\nentry:\n" ++
        "  %multmp = fmul double %x, 2.0\n  ret double %multmp\n\x7d\n" ++
        "> Read top-level expression:\ndefine double @__anon_expr() \x7b\nentry:\n" ++
        "  %calltmp = call double @f(double 3.0)\n  ret double %calltmp\n\x7d\n> " ++
        "> Error: unknown token when expecting an expression, found '+'\n" ++
        "> Error: expected ')' or ',' in argument list, found end of input\n> ").toUTF8 ∧
      last.target = some ⟨"m", [⟨"f", ["x"], some
        [.arithmetic .mul "multmp" (.register "x") (.constant (Numeral.value ['2'])),
          .ret (.register "multmp")]⟩], [], none⟩ := by
  intro first second session
  have items : Item.all .standard (Token.ofText first) =
      [.fault (.unexpected (some (.symbol ')'))),
        .construct (.definition ⟨⟨"f", ["x"]⟩,
          .binary '*' (.reference "x") (.number (Numeral.value ['2']))⟩),
        .construct (.expression (.call "f" [.number (Numeral.value ['3'])]))] := by
    decide +kernel
  have complete : Item.Complete (Item.all .standard (Token.ofText first)) := by
    rw [items]
    simp [Item.Complete, SyntaxError.found]
  obtain ⟨middle, last, run, run', joined⟩ :=
    run_join .standard (by decide) first second complete session rfl (Sink.neverFails_buffer rfl)
  have written := joined.symm.trans (run_of_unlimited session.target ..)
  rw [ByteArray.empty_append] at written
  obtain ⟨-, rfl⟩ := Outcome.ok.inj written
  refine ⟨complete, middle, _, run, run', joined, congrArg String.toUTF8 ?_, ?_⟩
  · decide +kernel
  · decide +kernel

end Session

end Formula
