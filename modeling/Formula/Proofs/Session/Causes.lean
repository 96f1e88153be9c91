import Formula.Proofs.Lowering.Causes
import Formula.Proofs.Session.Truncation

/-! # What sessions report errors for

A session lowers constructs that its sources hold. The module never has a function around an
expression when an item begins, if it had none at first: the one for an expression that was
lowered is removed, and one for an expression that fails is too. So no error that is reported is
about the state of the module.
-/

namespace Formula

open Ssa

variable {table : OperatorTable} {m m' : Module}

theorem Ssa.Module.Grows.absent (h : m.Grows m')
    (absent : m.function? Prototype.anonymousName = none) :
    m'.function? Prototype.anonymousName = none := by
  have none : m.wrappers = [] := by
    rw [Module.wrappers, List.filter_eq_nil_iff]
    simpa [Module.function?] using absent
  rw [← h.wrappers, Module.wrappers, List.filter_eq_nil_iff] at none
  simpa [Module.function?] using none

namespace Construct

variable {c : Construct}

theorem WellFormed.isInternal_lower {cause : LoweringError}
    (wellFormed : c.WellFormed table) (absent : m.function? Prototype.anonymousName = none)
    (h : c.lower m = .error cause m') : cause.isInternal = false := by
  cases wellFormed with
  | external name => exact Prototype.isInternal_lower h (Prototype.isAnonymous_of_isName name)
  | definition name =>
    have named := Prototype.isAnonymous_of_isName name
    exact Definition.isInternal_lower h fun anonymous => by simp [named] at anonymous
  | expression => exact Definition.isInternal_lower h fun _ => absent

end Construct

namespace Session

variable {S : Type} [Sink S]

theorem target_runFirst {P : Option Module → Prop} {source : Cursor} (session : Session Module S)
    (h : ∀ item ∈ Item.all table source.tokens, ∀ target, P target → P (item.handle target).2)
    (hp : P session.target) (k : Nat) : P (session.runFirst table source k).state.target := by
  let holds (session : Session Module S) : Prop := P session.target
  refine Outcome.state_andThen_of (P := holds) ?_ fun _ prompted begun => ?_
  · change P session.showPrompt.state.target
    rw [showPrompt, target_write]
    exact hp
  · exact prompted.target_steps (fun item mem => h item (List.mem_of_mem_take mem)) begun

theorem exists_runFirst (session : Session Module S) (writes : Sink.NeverFails session.sink)
    (table : OperatorTable) (source : Cursor) (k : Nat) :
    ∃ reached, session.runFirst table source k = .ok () reached := by
  obtain ⟨sink, prompted, -, writes⟩ := session.exists_showPrompt writes
  obtain ⟨last, steps, -⟩ :=
    exists_steps ((Item.all table source.tokens).take k) { session with sink } writes
  exact ⟨_, by rw [runFirst, prompted, Outcome.andThen_ok, steps]⟩

/--
Everything that is read from a source is well-formed, whatever the table is: no definition and no
external declaration is anonymous, and no call names the function around an expression. A session
whose module had no such function at first has none before any item of any run, with any sink and
after reports that failed, and the causes that it reports there are not internal.
-/
theorem runs_report_no_internal (table : OperatorTable) (source : Cursor) :
    (∀ constructs left, parseProgram table source.tokens = .ok constructs left →
      ∀ c ∈ constructs, c.WellFormed table) ∧
    (∀ c, .construct c ∈ Item.all table source.tokens → c.WellFormed table) ∧
    (∀ c : Construct, c.WellFormed table →
      (∀ p, c = .external p → p.isAnonymous = false) ∧
      (∀ d, c = .definition d → d.prototype.isAnonymous = false) ∧
      ∀ call ∈ c.calls, call.1 ≠ Prototype.anonymousName) ∧
    ∀ (session : Session Module S) (m : Module), session.target = some m →
      m.function? Prototype.anonymousName = none →
      ∀ (inputs : List (OperatorTable × Cursor)) (k : Nat) (reached : Session Module S),
        (session.runs inputs).runFirst table source k = .ok () reached →
        ∃ m', reached.target = some m' ∧ m'.function? Prototype.anonymousName = none ∧
          ∀ c, (Item.all table source.tokens)[k]? = some (.construct c) →
            ∀ cause failed, c.lower m' = .error cause failed →
              ((Item.construct c).handle (some m')).1 = some (errorLine cause.message) ∧
              cause.isInternal = false := by
  have items (c : Construct) : .construct c ∈ Item.all table source.tokens → c.WellFormed table :=
    Item.wellFormed_of_mem_all source.wellFormed_tokens
  refine ⟨fun constructs left read => ?_, items, fun c wellFormed => ?_, ?_⟩
  · exact (program_of_parseProgram read).2.wellFormed source.wellFormed_tokens
  · refine ⟨?_, ?_, wellFormed.ne_anonymousName_of_mem_calls⟩
    · rintro p rfl
      cases wellFormed with
      | external name => exact Prototype.isAnonymous_of_isName name
    · rintro d rfl
      cases wellFormed with
      | definition name => exact Prototype.isAnonymous_of_isName name
  · intro session m target absent inputs k reached run
    have keeps (table : OperatorTable) (source : Cursor) : ∀ item ∈ Item.all table source.tokens,
        ∀ target, HoldsGrown m target → HoldsGrown m (item.handle target).2 :=
      fun _ hi _ => holdsGrown_of_mem_all hi
    have begun := session.target_runs inputs keeps ⟨m, target, .refl m⟩
    have grown := (session.runs inputs).target_runFirst (keeps table source) begun k
    rw [run] at grown
    obtain ⟨m', left, grows⟩ := grown
    have absent' := grows.absent absent
    refine ⟨m', left, absent', fun c found cause failed lowered => ⟨?_, ?_⟩⟩
    · simp [Item.handle, Construct.lowerAndReport, lowered]
    · exact (items c (List.mem_of_getElem? found)).isInternal_lower absent' lowered

/-- A body is open at first, and the expression before has failed with its function declared. -/
theorem runs_report_no_internal_after_failure :
    let session : Session Module Buffer :=
      ⟨some ⟨"m", [⟨"f", ["x"], none⟩], [], some ⟨[], [], .empty⟩⟩, .empty none, "> ", false⟩
    let source := Cursor.ofChars "f(1, 2) f(y)".toList
    let m' : Module := ⟨"m", [⟨"f", ["x"], none⟩], [], none⟩
    let c : Construct := .expression (.call "f" [.reference "y"])
    (session.target.bind fun m => m.function? Prototype.anonymousName) = none ∧
    ∃ reached : Session Module Buffer,
      session.runFirst .standard source 1 = .ok () reached ∧ reached.target = some m' ∧
      (Item.all .standard source.tokens)[1]? = some (.construct c) ∧
      c.lower m' = .error (.unknownVariable "y") m' ∧
      ((Item.construct c).handle (some m')).1 = some "Error: unknown variable name y\n" ∧
      (LoweringError.unknownVariable "y").isInternal = false := by
  intro session source m' c
  have absent : (⟨"m", [⟨"f", ["x"], none⟩], [], some ⟨[], [], .empty⟩⟩ : Module).function?
      Prototype.anonymousName = none := by decide
  have items : (Item.all .standard source.tokens)[1]? = some (.construct c) := by decide +kernel
  obtain ⟨-, -, -, safe⟩ := runs_report_no_internal (S := Buffer) .standard source
  obtain ⟨reached, run⟩ :=
    session.exists_runFirst (Sink.neverFails_buffer rfl) .standard source 1
  obtain ⟨_, target, -, causes⟩ := safe session _ rfl absent [] 1 reached run
  have left : (session.runFirst .standard source 1).state.target = some m' := by decide +kernel
  rw [run, Outcome.state_ok, target] at left
  obtain rfl := Option.some.inj left
  have failed : c.lower m' = .error (.unknownVariable "y") m' := by decide +kernel
  obtain ⟨report, external⟩ := causes c items _ _ failed
  exact ⟨absent, reached, run, target, items, failed, report, external⟩

end Session

end Formula
