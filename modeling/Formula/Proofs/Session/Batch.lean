import Formula.Proofs.Grammar.Separation
import Formula.Proofs.Session.Writing
import Formula.Ssa.Module

/-! # A session and a batch

A program can be read as a whole, and its constructs then lowered in turn. A session that
is given the program piece by piece, and does not prompt, reports the same and leaves the
same module; where reading the whole fails, it agrees up to the error.
-/

namespace Formula

namespace Ssa.Module

/-- Lower one construct; the function of an expression is removed when its text is taken. -/
def lowerOne (m : Module) : Construct → String × Module
  | .external p =>
    match p.lower m with
    | .ok callable m' => ("Read extern: " ++ m'.render callable, m')
    | .error cause m' => ("Error: " ++ cause.message ++ "\n", m')
  | .definition d =>
    match d.lower m with
    | .ok callable m' => ("Read function definition:\n" ++ m'.render callable, m')
    | .error cause m' => ("Error: " ++ cause.message ++ "\n", m')
  | .expression e =>
    match (Definition.anonymous e).lower m with
    | .ok callable m' =>
      ("Read top-level expression:\n" ++ m'.render callable, m'.erase callable)
    | .error cause m' => ("Error: " ++ cause.message ++ "\n", m')

def lowerBatch (m : Module) : List Construct → String × Module
  | [] => ("", m)
  | c :: rest =>
    let (report, m) := m.lowerOne c
    let (reports, m) := m.lowerBatch rest
    (report ++ reports, m)

theorem lowerAndReport_eq (m : Module) (c : Construct) : c.lowerAndReport m = m.lowerOne c := by
  cases c with
  | external p =>
    have same : (Construct.external p).lower m = p.lower m := rfl
    rw [Construct.lowerAndReport, lowerOne, same]
    cases p.lower m <;> rfl
  | definition d =>
    have same : (Construct.definition d).lower m = d.lower m := rfl
    rw [Construct.lowerAndReport, lowerOne, same]
    cases d.lower m <;> rfl
  | expression e =>
    have same : (Construct.expression e).lower m = (Definition.anonymous e).lower m := rfl
    rw [Construct.lowerAndReport, lowerOne, same]
    cases (Definition.anonymous e).lower m <;> rfl

end Ssa.Module

/-- Among the tokens stand the constructs, and behind them the error is found. -/
inductive OperatorTable.Fails (table : OperatorTable) :
    List Construct → SyntaxError → List Token → Prop where
  | error {cause : SyntaxError} {tokens rest : List Token} : tokens ≠ [] →
    tokens.head? ≠ some (.symbol ';') → Construct.parse table tokens = .error cause rest →
    Fails table [] cause tokens
  | separator {constructs : List Construct} {cause : SyntaxError} {tokens : List Token} :
    Fails table constructs cause tokens → Fails table constructs cause (.symbol ';' :: tokens)
  | construct {c : Construct} {constructs : List Construct} {cause : SyntaxError}
      {tokens rest : List Token} : tokens ≠ [] → tokens.head? ≠ some (.symbol ';') →
    Construct.parse table tokens = .ok c rest → Fails table constructs cause rest →
    Fails table (c :: constructs) cause tokens

variable {table : OperatorTable} {tokens left : List Token} {constructs : List Construct}
variable {cause : SyntaxError}

theorem fails_of_parseProgram (h : parseProgram table tokens = .error cause left) :
    ∃ constructs, table.Fails constructs cause tokens := by
  fun_induction parseProgram table tokens with
  | case1 => cases h
  | case2 tokens _ rest after ih =>
    obtain ⟨constructs, fails⟩ := ih h
    rw [Token.after?_eq_some.mp after]
    exact ⟨constructs, .separator fails⟩
  | case3 tokens nonempty after c rest parsed ih =>
    obtain ⟨constructs, fails⟩ := ih (Outcome.map_eq_error.mp h)
    exact ⟨c :: constructs, .construct nonempty (Token.after?_eq_none_iff.mp after) parsed fails⟩
  | case4 tokens nonempty after _ _ failed =>
    obtain ⟨rfl, rfl⟩ := Outcome.error.inj h
    exact ⟨[], .error nonempty (Token.after?_eq_none_iff.mp after) failed⟩

namespace Item

theorem all_construct {c : Construct} (nonempty : tokens ≠ [])
    (opens : tokens.head? ≠ some (.symbol ';'))
    (parsed : Construct.parse table tokens = .ok c left) :
    all table tokens = .construct c :: all table left := by
  rw [all, dif_neg nonempty, next_construct opens parsed]

theorem all_fault (nonempty : tokens ≠ []) (opens : tokens.head? ≠ some (.symbol ';'))
    (failed : Construct.parse table tokens = .error cause left) :
    all table tokens = .fault cause :: all table left.tail := by
  rw [all, dif_neg nonempty, next_fault opens failed]

theorem all_of_parseProgram (h : parseProgram table tokens = .ok constructs left) :
    (all table tokens).filter (· ≠ .separator) = constructs.map .construct := by
  fun_induction parseProgram table tokens generalizing constructs with
  | case1 =>
    obtain ⟨rfl, -⟩ := Outcome.ok.inj h
    rw [all, dif_pos rfl]
    rfl
  | case2 tokens _ rest after ih =>
    rw [Token.after?_eq_some.mp after, all_semicolon, List.filter_cons_of_neg (by simp), ih h]
  | case3 tokens nonempty after c rest parsed ih =>
    obtain ⟨more, hm, rfl⟩ := Outcome.map_eq_ok.mp h
    rw [all_construct nonempty (Token.after?_eq_none_iff.mp after) parsed,
      List.filter_cons_of_pos (by simp), ih hm, List.map_cons]
  | case4 => cases h

theorem all_of_fails (h : table.Fails constructs cause tokens) :
    ∃ later, (all table tokens).filter (· ≠ .separator) =
      constructs.map .construct ++ .fault cause :: later := by
  induction h with
  | error nonempty opens failed =>
    rw [all_fault nonempty opens failed, List.filter_cons_of_pos (by simp)]
    exact ⟨_, rfl⟩
  | separator _ ih =>
    rw [all_semicolon, List.filter_cons_of_neg (by simp)]
    exact ih
  | construct nonempty opens parsed _ ih =>
    obtain ⟨later, same⟩ := ih
    rw [all_construct nonempty opens parsed, List.filter_cons_of_pos (by simp), same]
    exact ⟨later, rfl⟩

section Reports

variable {σ Value Callable : Type} [LoweringTarget σ Value Callable]

/-- The reports on items one after another, without prompts, and the target that they leave. -/
def reports (items : List Item) (target : Option σ) : String × Option σ :=
  (String.join (outputs "" items target).1, (outputs "" items target).2)

theorem reports_cons (item : Item) (items : List Item) (target : Option σ) :
    reports (item :: items) target =
      ((item.handle target).1.getD "" ++ (reports items (item.handle target).2).1,
        (reports items (item.handle target).2).2) := by
  rcases handled : item.handle target with ⟨_ | text, target'⟩ <;>
    simp [reports, outputs, handled]

theorem reports_append (items more : List Item) (target : Option σ) :
    reports (items ++ more) target =
      ((reports items target).1 ++ (reports more (reports items target).2).1,
        (reports more (reports items target).2).2) := by
  simp [reports, outputs_append]

theorem reports_filter (items : List Item) (target : Option σ) :
    reports (items.filter (· ≠ .separator)) target = reports items target := by
  induction items generalizing target with
  | nil => rfl
  | cons item rest ih =>
    cases item with
    | separator =>
      rw [List.filter_cons_of_neg (by simp), ih, reports_cons]
      simp [handle]
    | construct | fault =>
      rw [List.filter_cons_of_pos (by simp), reports_cons, ih, reports_cons]

theorem reports_of_parseProgram (h : parseProgram table tokens = .ok constructs left)
    (target : Option σ) :
    reports (all table tokens) target = reports (constructs.map .construct) target := by
  rw [← reports_filter, all_of_parseProgram h]

theorem reports_of_fails (h : table.Fails constructs cause tokens) (target : Option σ) :
    ∃ more, (reports (all table tokens) target).1 =
      (reports (constructs.map .construct) target).1 ++ errorLine cause.message ++ more := by
  obtain ⟨later, begun⟩ := all_of_fails h
  rw [← reports_filter, begun, reports_append, reports_cons]
  exact ⟨_, (String.append_assoc ..).symm⟩

theorem target_reports_none (items : List Item) : (reports items (none : Option σ)).2 = none := by
  induction items with
  | nil => rfl
  | cons item rest ih =>
    rw [reports_cons]
    cases item <;> exact ih

theorem target_reports_some (items : List Item) (target : σ) :
    ∃ last, (reports items (some target)).2 = some last := by
  induction items generalizing target with
  | nil => exact ⟨target, rfl⟩
  | cons item rest ih =>
    rw [reports_cons]
    cases item <;> exact ih _

theorem reports_unlowered (constructs : List Construct) :
    reports (constructs.map .construct) (none : Option σ) =
      (String.join (constructs.map Construct.acknowledgement), none) := by
  induction constructs with
  | nil => rfl
  | cons c rest ih =>
    rw [List.map_cons, reports_cons]
    simp [handle, ih]

end Reports

theorem reports_lowered (constructs : List Construct) (m : Ssa.Module) :
    reports (constructs.map .construct) (some m) =
      ((m.lowerBatch constructs).1, some (m.lowerBatch constructs).2) := by
  induction constructs generalizing m with
  | nil => rfl
  | cons c rest ih =>
    rw [List.map_cons, reports_cons]
    simp [handle, Ssa.Module.lowerAndReport_eq, ih, Ssa.Module.lowerBatch]

end Item

namespace Session

variable {σ Value Callable S : Type} [LoweringTarget σ Value Callable] [Sink S]

theorem exists_silent_run (target : Option σ) {sink : S} (writes : Sink.NeverFails sink)
    (table : OperatorTable) (text : String) :
    ∃ last, (⟨target, sink, "", false⟩ : Session σ S).run table (.ofChars text.toList) =
        .ok () ⟨(Item.reports (Item.all table (Token.ofText text)) target).2, last, "", false⟩ ∧
      Sink.Writes sink (Item.reports (Item.all table (Token.ofText text)) target).1 last := by
  obtain ⟨last, run, written, -⟩ :=
    exists_run ⟨target, sink, "", false⟩ rfl writes table (.ofChars text.toList)
  refine ⟨last, run, _, ?_, written⟩
  rw [String.join_cons, String.empty_append]
  rfl

/--
A session that shows no prompt and can always write reports on just the constructs that the whole
text is read as, and leaves the module that lowering them in turn leaves. Without a target it writes
the line of each construct. Where the text cannot be read, the reports begin with those on the
constructs before the error, and the line of the error is next.
-/
theorem run_matches_batch (table : OperatorTable) (text : String) (m : Ssa.Module) (sink : S)
    (writes : Sink.NeverFails sink) :
    ∃ report m' last acknowledged silent,
      (⟨some m, sink, "", false⟩ : Session Ssa.Module S).run table (.ofChars text.toList) =
        .ok () ⟨some m', last, "", false⟩ ∧
      Sink.Writes sink report last ∧
      (⟨none, sink, "", false⟩ : Session σ S).run table (.ofChars text.toList) =
        .ok () ⟨none, silent, "", false⟩ ∧
      Sink.Writes sink acknowledged silent ∧
      match parseText table text with
      | .ok constructs =>
        (report, m') = m.lowerBatch constructs ∧
        acknowledged = String.join (constructs.map Construct.acknowledgement)
      | .error cause =>
        ∃ constructs more others, table.Fails constructs cause (Token.ofText text) ∧
          report = (m.lowerBatch constructs).1 ++ ("Error: " ++ cause.message ++ "\n") ++ more ∧
          acknowledged = String.join (constructs.map Construct.acknowledgement) ++
            ("Error: " ++ cause.message ++ "\n") ++ others := by
  obtain ⟨last, lowered, reported⟩ := exists_silent_run (some m) writes table text
  obtain ⟨silent, parsed, acknowledged⟩ := exists_silent_run (none : Option σ) writes table text
  rw [Item.target_reports_none] at parsed
  obtain ⟨m', left⟩ := Item.target_reports_some (Item.all table (Token.ofText text)) m
  rw [left] at lowered
  refine ⟨_, m', last, _, silent, lowered, reported, parsed, acknowledged, ?_⟩
  unfold parseText
  cases program : parseProgram table (Token.ofText text) with
  | ok constructs rest =>
    rw [Item.reports_of_parseProgram program, Item.reports_lowered] at left ⊢
    rw [Item.reports_of_parseProgram program, Item.reports_unlowered]
    exact ⟨Prod.ext rfl (Option.some.inj left).symm, rfl⟩
  | error cause rest =>
    obtain ⟨constructs, fails⟩ := fails_of_parseProgram program
    obtain ⟨more, report⟩ := Item.reports_of_fails fails (some m)
    obtain ⟨others, acknowledged⟩ := Item.reports_of_fails fails (none : Option σ)
    rw [Item.reports_lowered] at report
    rw [Item.reports_unlowered] at acknowledged
    exact ⟨constructs, more, others, fails, report, acknowledged⟩

/-- Two of the constructs cannot be lowered, and those after them find the module unchanged. -/
theorem run_matches_batch_between_failures :
    Sink.NeverFails (Buffer.empty none) ∧ ∃ m' last silent,
      (⟨some (.empty "m"), .empty none, "", false⟩ : Session Ssa.Module Buffer).run .standard
        (.ofChars "f(1) extern f(x); def g(a) b def g(a) a".toList) =
          .ok () ⟨some m', last, "", false⟩ ∧
      m'.functions = [⟨"f", ["x"], none⟩, ⟨"g", ["a"], some [.ret (.register "a")]⟩] ∧
      last.bytes = ("Error: unknown function referenced f\n" ++
        "Read extern: declare double @f(double %x)\n" ++ "Error: unknown variable name b\n" ++
        "Read function definition:\ndefine double @g(double %a) \x7b\nentry:\n" ++
        "  ret double %a\n\x7d\n").toUTF8 ∧
      (⟨none, .empty none, "", false⟩ : Session NoTarget Buffer).run .standard
        (.ofChars "f(1) extern f(x); def g(a) b def g(a) a".toList) =
          .ok () ⟨none, silent, "", false⟩ ∧
      silent.bytes = ("Parsed a top-level expr\nParsed an extern\n" ++
        "Parsed a function definition.\nParsed a function definition.\n").toUTF8 := by
  have writes : Sink.NeverFails (Buffer.empty none) := Sink.neverFails_buffer rfl
  have program :
      parseProgram .standard (Token.ofText "f(1) extern f(x); def g(a) b def g(a) a") =
        .ok [.expression (.call "f" [.number (Numeral.value ['1'])]), .external ⟨"f", ["x"]⟩,
          .definition ⟨⟨"g", ["a"]⟩, .reference "b"⟩,
          .definition ⟨⟨"g", ["a"]⟩, .reference "a"⟩] [] := by
    decide +kernel
  obtain ⟨report, m', last, acknowledged, silent, run, reported, quiet, told, same⟩ :=
    run_matches_batch (σ := NoTarget) .standard "f(1) extern f(x); def g(a) b def g(a) a"
      (.empty "m") (Buffer.empty none) writes
  rw [parseText, program] at same
  obtain ⟨lowered, rfl⟩ := same
  obtain ⟨rfl, rfl⟩ := Prod.mk.inj lowered
  refine ⟨writes, _, last, silent, run, by decide +kernel, ?_, quiet, ?_⟩
  · rw [reported.eq_of_unlimited, ByteArray.empty_append]
    exact congrArg String.toUTF8 (by decide +kernel)
  · rw [told.eq_of_unlimited, ByteArray.empty_append]
    exact congrArg String.toUTF8 (by decide +kernel)

end Session

end Formula
