import Formula.Proofs.Lowering.Outcomes

/-! # Failed lowering is atomic

A construct that cannot be lowered leaves no trace: the functions are what they were, and a
body that was opened for it is dropped. Where nothing is under construction, a run of
lowering is therefore the run of the constructs that do not fail.
-/

namespace Formula

open Ssa LoweringTarget

def Outcome.result {ε σ α : Type} : Outcome ε σ α → Except ε α
  | ok value _ => .ok value
  | error cause _ => .error cause

namespace Ssa.Module

/-- The modules have the same functions, and each question about them has the same answer. -/
structure SameFunctions (m m' : Module) : Prop where
  functions : m'.functions = m.functions
  text : renderModule m' = renderModule m
  find (name : String) : find? m' name = find? m name
  arity (callable : String) : LoweringTarget.arity m' callable = LoweringTarget.arity m callable
  hasBody (callable : String) :
    LoweringTarget.hasBody m' callable = LoweringTarget.hasBody m callable
  render (callable : String) :
    LoweringTarget.render m' callable = LoweringTarget.render m callable

theorem SameFunctions.refl (m : Module) : m.SameFunctions m :=
  ⟨rfl, rfl, fun _ => rfl, fun _ => rfl, fun _ => rfl, fun _ => rfl⟩

theorem sameFunctions_abandonBody (m : Module) : m.SameFunctions m.abandonBody :=
  ⟨rfl, rfl, fun _ => rfl, fun _ => rfl, fun _ => rfl, fun _ => rfl⟩

/-- Lower constructs one after another, whether they fail or not. -/
def lowerEach (m : Module) : List Construct → List (Except LoweringError String) × Module
  | [] => ([], m)
  | c :: rest =>
    let (results, last) := (c.lower m).state.lowerEach rest
    ((c.lower m).result :: results, last)

def succeeding (m : Module) (constructs : List Construct) : List Construct :=
  ((constructs.zip (m.lowerEach constructs).1).filter (·.2.isOk)).map (·.1)

end Ssa.Module

variable {m m' : Module} {cause : LoweringError} {callable : String}

theorem Prototype.lower_eq_error {p : Prototype} (h : p.lower m = .error cause m') : m' = m := by
  unfold lower at h
  split at h
  · exact (Outcome.error.inj h).2.symm
  · exact state_declareOrFind_of_error h

theorem Prototype.idle_lower {p : Prototype} (h : p.lower m = .ok callable m') (hi : m.Idle) :
    m'.Idle := by
  unfold lower at h
  split at h
  · cases h
  · obtain ⟨-, ⟨_, _, _, _, rfl⟩ | ⟨_, rfl⟩⟩ := declareOrFind_eq_ok h
    · exact hi
    · exact ⟨hi.builder, hi.scope⟩

theorem Definition.idle_lower {d : Definition} (h : d.lower m = .ok callable m') : m'.Idle := by
  obtain ⟨-, _, _, _, _, -, -, -, rfl⟩ := lower_eq_ok h
  exact ⟨rfl, rfl⟩

theorem Definition.lower_eq_error_of_idle {d : Definition} (h : d.lower m = .error cause m')
    (hi : m.Idle) : m' = m := by
  obtain ⟨-, rfl⟩ | ⟨-, rfl⟩ := lower_eq_error h
  · rfl
  · exact hi.abandonBody_eq

namespace Construct

theorem idle_lower {c : Construct} (h : c.lower m = .ok callable m') (hi : m.Idle) : m'.Idle := by
  cases c with
  | external p => exact p.idle_lower h hi
  | definition d => exact d.idle_lower h
  | expression e => exact Definition.idle_lower h

theorem lower_eq_error_of_idle {c : Construct} (h : c.lower m = .error cause m') (hi : m.Idle) :
    m' = m := by
  cases c with
  | external p => exact p.lower_eq_error h
  | definition d => exact d.lower_eq_error_of_idle h hi
  | expression e => exact Definition.lower_eq_error_of_idle h hi

end Construct

namespace Ssa.Module

variable {c : Construct} (constructs : List Construct)

theorem lowerEach_cons_ok (h : c.lower m = .ok callable m') :
    m.lowerEach (c :: constructs) =
      (.ok callable :: (m'.lowerEach constructs).1, (m'.lowerEach constructs).2) := by
  simp [lowerEach, h, Outcome.result]

theorem lowerEach_cons_error (h : c.lower m = .error cause m') :
    m.lowerEach (c :: constructs) =
      (.error cause :: (m'.lowerEach constructs).1, (m'.lowerEach constructs).2) := by
  simp [lowerEach, h, Outcome.result]

theorem succeeding_cons_ok (h : c.lower m = .ok callable m') :
    m.succeeding (c :: constructs) = c :: m'.succeeding constructs := by
  simp [succeeding, lowerEach_cons_ok constructs h, Except.isOk, Except.toBool]

theorem succeeding_cons_error (h : c.lower m = .error cause m') :
    m.succeeding (c :: constructs) = m'.succeeding constructs := by
  simp [succeeding, lowerEach_cons_error constructs h, Except.isOk, Except.toBool]

theorem lowerEach_succeeding (hi : m.Idle) :
    m.lowerEach (m.succeeding constructs) =
      ((m.lowerEach constructs).1.filter (·.isOk), (m.lowerEach constructs).2) := by
  induction constructs generalizing m with
  | nil => rfl
  | cons c rest ih =>
    cases hc : c.lower m with
    | ok callable next =>
      rw [succeeding_cons_ok rest hc, lowerEach_cons_ok _ hc, lowerEach_cons_ok _ hc,
        ih (c.idle_lower hc hi)]
      rfl
    | error cause next =>
      -- The next construct meets the module that this one met.
      obtain rfl := c.lower_eq_error_of_idle hc hi
      rw [succeeding_cons_error rest hc, lowerEach_cons_error _ hc, ih hi]
      rfl

/--
A failure changes no function, and leaves no body that was opened for it. Leaving out the
constructs that fail changes neither the other results nor the module in the end.
-/
theorem lowering_atomic (m : Module) :
    (∀ (d : Definition) (m' : Module) (cause : LoweringError), d.lower m = .error cause m' →
      m.SameFunctions m' ∧ (d.OpensBody m → m'.Idle)) ∧
    (∀ (p : Prototype) (m' : Module) (cause : LoweringError), p.lower m = .error cause m' →
      m.SameFunctions m' ∧ m' = m) ∧
    (m.Idle → ∀ constructs : List Construct, m.lowerEach (m.succeeding constructs) =
      ((m.lowerEach constructs).1.filter (·.isOk), (m.lowerEach constructs).2)) := by
  refine ⟨fun d m' cause h => ?_, fun p m' cause h => ?_, fun hi constructs => ?_⟩
  · obtain ⟨unopened, rfl⟩ | ⟨-, rfl⟩ := Definition.lower_eq_error h
    · exact ⟨.refl m', fun opened => absurd opened unopened⟩
    · exact ⟨m.sameFunctions_abandonBody, fun _ => m.idle_abandonBody⟩
  · obtain rfl := Prototype.lower_eq_error h
    exact ⟨.refl m', rfl⟩
  · exact lowerEach_succeeding constructs hi

theorem lowering_atomic_extern :
    (∃ m', Definition.lower ⟨⟨"f", ["a"]⟩, .reference "b"⟩
        (⟨"m", [⟨"f", ["a"], none⟩], [("q", .constant .zero)], some ⟨[], [], .empty⟩⟩ : Module) =
        .error (.unknownVariable "b") m' ∧
      m'.functions = [⟨"f", ["a"], none⟩]) ∧
    (∃ m', Prototype.anonymous.lower (empty "m") = .error (.reservedName "__anon_expr") m' ∧
      m' = empty "m") ∧
    (empty "m").lowerEach [.external ⟨"f", ["a"]⟩, .definition ⟨⟨"f", ["a"]⟩, .reference "b"⟩,
        .definition ⟨⟨"f", ["a"]⟩, .reference "a"⟩] =
      ([.ok "f", .error (.unknownVariable "b"), .ok "f"],
        ⟨"m", [⟨"f", ["a"], some [.ret (.register "a")]⟩], [], none⟩) ∧
    (empty "m").lowerEach [.external ⟨"f", ["a"]⟩, .definition ⟨⟨"f", ["a"]⟩, .reference "a"⟩] =
      ([.ok "f", .ok "f"], ⟨"m", [⟨"f", ["a"], some [.ret (.register "a")]⟩], [], none⟩) := by
  refine ⟨?_, ?_, ?_⟩
  · obtain ⟨m', h⟩ : ∃ m', Definition.lower ⟨⟨"f", ["a"]⟩, .reference "b"⟩
        (⟨"m", [⟨"f", ["a"], none⟩], [("q", .constant .zero)], some ⟨[], [], .empty⟩⟩ : Module) =
        .error (.unknownVariable "b") m' := ⟨_, rfl⟩
    exact ⟨m', h, ((lowering_atomic _).1 _ _ _ h).1.functions⟩
  · obtain ⟨m', h⟩ : ∃ m', Prototype.anonymous.lower (empty "m") =
        .error (.reservedName "__anon_expr") m' := ⟨_, rfl⟩
    exact ⟨m', h, ((lowering_atomic _).2.1 _ _ _ h).2⟩
  · have all : (empty "m").lowerEach [.external ⟨"f", ["a"]⟩,
        .definition ⟨⟨"f", ["a"]⟩, .reference "b"⟩, .definition ⟨⟨"f", ["a"]⟩, .reference "a"⟩] =
      ([.ok "f", .error (.unknownVariable "b"), .ok "f"],
        ⟨"m", [⟨"f", ["a"], some [.ret (.register "a")]⟩], [], none⟩) := by rfl
    have kept := (lowering_atomic (empty "m")).2.2 ⟨rfl, rfl⟩ [.external ⟨"f", ["a"]⟩,
      .definition ⟨⟨"f", ["a"]⟩, .reference "b"⟩, .definition ⟨⟨"f", ["a"]⟩, .reference "a"⟩]
    refine ⟨all, ?_⟩
    simpa [succeeding, all, Except.isOk, Except.toBool] using kept

end Ssa.Module

end Formula
