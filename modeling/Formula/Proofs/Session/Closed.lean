import Formula.Proofs.Grammar.WellFormed
import Formula.Proofs.Lowering.Closed
import Formula.Proofs.Session.Writing

/-! # Sessions keep their module closed

Whatever a source holds, and wherever the sink refuses a text, the module of a session is
closed after each run: writing does not touch it, and each item keeps it closed.
-/

namespace Formula

open Ssa

def HoldsClosed (target : Option Module) : Prop := ∃ m, target = some m ∧ m.Closed

namespace Construct

variable {c : Construct} {m : Module}

theorem target_lowerAndReport (h : c.isTransient = false) (m : Module) :
    (c.lowerAndReport m).2 = (c.lower m).state := by
  unfold lowerAndReport
  cases c.lower m with
  | ok callable m' => simp [h]
  | error cause m' => rfl

theorem closed_lowerAndReport (hm : m.Closed)
    (hn : ∀ d, c = definition d → d.prototype.name ≠ Prototype.anonymousName) :
    (c.lowerAndReport m).2.Closed := by
  cases c with
  | external p =>
    rw [target_lowerAndReport rfl]
    exact p.closed_lower hm
  | definition d =>
    rw [target_lowerAndReport rfl]
    exact Definition.closed_lower hm (hn d rfl)
  | expression e =>
    unfold lowerAndReport
    cases hl : (expression e).lower m with
    | ok callable m' =>
      have erased : m'.erase callable = m.abandonBody := Definition.erase_lower_anonymous hl
      change (m'.erase callable).Closed
      rw [erased, hm.idle.abandonBody_eq]
      exact hm
    | error cause m' =>
      obtain rfl := lower_eq_error_of_idle hl hm.idle
      exact hm

end Construct

theorem Item.holdsClosed_handle (item : Item) {target : Option Module} (h : HoldsClosed target)
    (hn : ∀ d, item = .construct (.definition d) →
      d.prototype.name ≠ Prototype.anonymousName) :
    HoldsClosed (item.handle target).2 := by
  obtain ⟨m, rfl, closed⟩ := h
  cases item with
  | separator => exact ⟨m, rfl, closed⟩
  | fault cause => exact ⟨m, rfl, closed⟩
  | construct c =>
    exact ⟨_, rfl, Construct.closed_lowerAndReport closed fun d hd => hn d (congrArg construct hd)⟩

namespace Session

variable {S : Type} [Sink S]

theorem ne_anonymousName_of_mem_all {table : OperatorTable} {source : Cursor} {d : Definition}
    (h : .construct (.definition d) ∈ Item.all table source.tokens) :
    d.prototype.name ≠ Prototype.anonymousName := by
  cases Item.wellFormed_of_mem_all source.wellFormed_tokens h with
  | definition name => exact name.ne_anonymousName

theorem holdsClosed_of_mem_all {table : OperatorTable} {source : Cursor} {item : Item}
    (h : item ∈ Item.all table source.tokens) {target : Option Module}
    (closed : HoldsClosed target) : HoldsClosed (item.handle target).2 := by
  refine item.holdsClosed_handle closed fun d hd => ?_
  subst hd
  exact ne_anonymousName_of_mem_all h

/-- Runs of one session, one after another, whether they succeed or fail. -/
def runs (session : Session Module S) : List (OperatorTable × Cursor) → Session Module S
  | [] => session
  | (table, source) :: rest => (session.run table source).state.runs rest

/-- What the items of all sources keep true of the target, runs keep, even if reports fail. -/
theorem target_runs {P : Option Module → Prop} (session : Session Module S)
    (inputs : List (OperatorTable × Cursor))
    (h : ∀ (table : OperatorTable) (source : Cursor), ∀ item ∈ Item.all table source.tokens,
      ∀ target, P target → P (item.handle target).2)
    (hp : P session.target) : P (session.runs inputs).target := by
  induction inputs generalizing session with
  | nil => exact hp
  | cons input rest ih => exact ih _ (session.target_run (h input.1 input.2) hp)

theorem holdsClosed_runs (session : Session Module S) (inputs : List (OperatorTable × Cursor))
    (h : HoldsClosed session.target) : HoldsClosed (session.runs inputs).target :=
  session.target_runs inputs (fun _ _ _ hi _ => holdsClosed_of_mem_all hi) h

/--
After any number of runs over any sources and tables, with any prompt and any sink, the module
that a session began without functions is closed.
-/
theorem runs_closed (name : String) (sink : S) (prompt : String) (dumpsModule : Bool)
    (inputs : List (OperatorTable × Cursor)) :
    ∃ m, ((⟨some (.empty name), sink, prompt, dumpsModule⟩ : Session Module S).runs inputs).target =
      some m ∧ m.Closed :=
  holdsClosed_runs _ inputs ⟨_, rfl, Module.closed_empty name⟩

end Session

end Formula
