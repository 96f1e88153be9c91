import Formula.Proofs.Lowering.Growth
import Formula.Proofs.Session.Closed

/-! # Sessions let their module grow

Whatever a source holds, and wherever the sink refuses a text, a run only adds functions,
and bodies of functions that had none. The function around an expression is removed before
its text is written, and one that was there before is never removed.
-/

namespace Formula

open Ssa

def HoldsGrown (m : Module) (target : Option Module) : Prop := ∃ m', target = some m' ∧ m.Grows m'

namespace Construct

theorem grows_lowerAndReport {c : Construct} (m : Module)
    (hn : ∀ d, c = definition d → d.prototype.name ≠ Prototype.anonymousName) :
    m.Grows (c.lowerAndReport m).2 := by
  cases c with
  | external p =>
    rw [target_lowerAndReport rfl]
    exact p.grows_lower m
  | definition d =>
    rw [target_lowerAndReport rfl]
    exact Definition.grows_lower (hn d rfl) m
  | expression e =>
    unfold lowerAndReport
    cases hl : (expression e).lower m with
    | ok callable m' =>
      have erased : m'.erase callable = m.abandonBody := Definition.erase_lower_anonymous hl
      change m.Grows (m'.erase callable)
      rw [erased]
      exact m.grows_abandonBody
    | error cause m' => exact Definition.grows_of_lower_eq_error hl

end Construct

theorem Item.holdsGrown_handle {m : Module} (item : Item) {target : Option Module}
    (h : HoldsGrown m target)
    (hn : ∀ d, item = .construct (.definition d) →
      d.prototype.name ≠ Prototype.anonymousName) :
    HoldsGrown m (item.handle target).2 := by
  obtain ⟨m', rfl, grown⟩ := h
  cases item with
  | separator => exact ⟨m', rfl, grown⟩
  | fault cause => exact ⟨m', rfl, grown⟩
  | construct c =>
    have step := c.grows_lowerAndReport m' fun d hd => hn d (congrArg construct hd)
    exact ⟨_, rfl, grown.trans step⟩

namespace Session

variable {S : Type} [Sink S]

theorem holdsGrown_of_mem_all {m : Module} {table : OperatorTable} {source : Cursor} {item : Item}
    (h : item ∈ Item.all table source.tokens) {target : Option Module}
    (grown : HoldsGrown m target) : HoldsGrown m (item.handle target).2 := by
  refine item.holdsGrown_handle grown fun d hd => ?_
  subst hd
  exact ne_anonymousName_of_mem_all h

theorem exists_grown (session : Session Module S) {m : Module} (h : session.target = some m)
    (table : OperatorTable) (source : Cursor) :
    HoldsGrown m (session.run table source).state.target :=
  session.target_run (fun _ hi _ => holdsGrown_of_mem_all hi) ⟨m, h, .refl m⟩

/--
A run on any module keeps its functions, with any sink and even if a report fails: their names
stand first and in their order, one with a body is unchanged, and one without a body is unchanged or
has got a body and as many parameters. Of functions around expressions, the run leaves just those
that were there.
-/
theorem run_keeps_functions (m : Module) (table : OperatorTable) (source : Cursor) (sink : S)
    (prompt : String) (dumpsModule : Bool) :
    ∃ m', ((⟨some m, sink, prompt, dumpsModule⟩ : Session Module S).run table source).state.target =
        some m' ∧
      m.functions.map (·.name) <+: m'.functions.map (·.name) ∧
      (∀ (i : Nat) (f : Function), m.functions[i]? = some f →
        ∃ g, m'.functions[i]? = some g ∧ g.name = f.name ∧ (f.body.isSome → g = f) ∧
          (g = f ∨ g.body.isSome ∧ g.params.length = f.params.length)) ∧
      m'.functions.filter (·.name = Prototype.anonymousName) =
        m.functions.filter (·.name = Prototype.anonymousName) := by
  obtain ⟨m', left, grown⟩ :=
    exists_grown (⟨some m, sink, prompt, dumpsModule⟩ : Session Module S) rfl table source
  refine ⟨m', left, grown.names_isPrefix, fun i f hf => ?_, grown.wrappers⟩
  obtain ⟨g, hg, becomes⟩ := grown.kept i f hf
  refine ⟨g, hg, becomes.name_eq, ?_, ?_⟩
  · intro hasBody
    cases becomes with
    | same => rfl
    | defined _ bodiless => simp [bodiless] at hasBody
  · cases becomes with
    | same => exact .inl rfl
    | defined _ _ count => exact .inr ⟨rfl, count⟩

/-- The sink is full at once, and a function around an expression is there from the start. -/
theorem run_keeps_functions_wrapped :
    ∃ m', ((⟨some ⟨"m", [⟨"f", ["x"], none⟩, ⟨"__anon_expr", [], some [.ret (.constant .zero)]⟩],
        [], none⟩, Buffer.empty (some 5), "", false⟩ : Session Module Buffer).run .standard
        (.ofChars "f(1) def f(y) y 2".toList)).state.target = some m' ∧
      ["f", "__anon_expr"] <+: m'.functions.map (·.name) ∧
      m'.functions[1]? = some ⟨"__anon_expr", [], some [.ret (.constant .zero)]⟩ := by
  obtain ⟨m', left, names, kept, -⟩ := run_keeps_functions
    ⟨"m", [⟨"f", ["x"], none⟩, ⟨"__anon_expr", [], some [.ret (.constant .zero)]⟩], [], none⟩
    .standard (.ofChars "f(1) def f(y) y 2".toList) (Buffer.empty (some 5)) "" false
  obtain ⟨g, found, -, same, -⟩ := kept 1 _ rfl
  obtain rfl := same rfl
  exact ⟨m', left, names, found⟩

end Session

end Formula
