import Formula.Proofs.Lowering.Outcomes

/-! # Why lowering fails

Lowering into a module fails for what a construct says: a name or an operator that means nothing,
a wrong number of arguments, a function that is there already. That no body is open is never the
cause, since a definition opens one and an expression keeps it open; that the name is reserved is
the cause for a construct only that takes this name, or finds the module holding it.
-/

namespace Formula

open Ssa LoweringTarget

/-- Whether an error is about the state of the target, not about what a construct says. -/
def LoweringError.isInternal : LoweringError → Bool
  | reservedName _ | noInsertionPoint | noTarget => true
  | _ => false

namespace Lowered

variable {α β : Type}

/-- The outcome of a step in an open body: the body is still open, or the cause is not internal. -/
def InBody : Lowered Module α → Prop
  | .ok _ m => m.builder.isSome = true
  | .error cause _ => cause.isInternal = false

theorem InBody.andThen {outcome : Lowered Module α} {next : α → Module → Lowered Module β}
    (h : outcome.InBody)
    (h' : ∀ value (m : Module), m.builder.isSome = true → (next value m).InBody) :
    InBody (outcome.andThen next) := by
  cases outcome with
  | ok value m => exact h' value m h
  | error => exact h

theorem InBody.map {outcome : Lowered Module α} (h : outcome.InBody) (f : α → β) :
    InBody (outcome.map f) := by
  cases outcome with
  | ok => exact h
  | error => exact h

end Lowered

namespace Ssa.Module

variable {m : Module}

theorem inBody_argument (h : m.builder.isSome = true) (name : String) :
    (m.argument name).InBody := by
  unfold argument
  split
  · exact h
  · rfl

theorem inBody_emit (h : m.builder.isSome = true) (base : String)
    (instruction : String → Instruction) : (m.emit base instruction).InBody := by
  unfold emit
  split
  next closed => simp [closed] at h
  · rfl

theorem inBody_binary (h : m.builder.isSome = true) (op : Char) (lhs rhs : Value) :
    (m.binary op lhs rhs).InBody := by
  have opened : ¬ m.builder.isNone = true := fun closed => by
    simp [Option.isNone_iff_eq_none.mp closed] at h
  rw [binary, if_neg opened]
  split
  · rfl
  · exact (inBody_emit h _ _).map _
  · exact (inBody_emit h _ _).andThen fun flag m' opened' => (inBody_emit opened' _ _).map _

end Ssa.Module

namespace Expr

theorem inBody_lowerAll {args : List Expr}
    (h : ∀ arg ∈ args, ∀ m : Module, m.builder.isSome = true → (arg.lower m).InBody)
    (m : Module) (opened : m.builder.isSome = true) : (lowerAll args m).InBody := by
  induction args generalizing m with
  | nil => exact opened
  | cons arg rest ih =>
    refine (h arg List.mem_cons_self m opened).andThen fun value m' opened' => ?_
    exact (ih (fun a mem => h a (List.mem_cons_of_mem _ mem)) m' opened').map _

/-- An expression that is lowered into an open body leaves it open, or says why it fails. -/
theorem inBody_lower (e : Expr) (m : Module) (h : m.builder.isSome = true) :
    (e.lower m).InBody := by
  induction e generalizing m with
  | number => exact h
  | reference name => exact m.inBody_argument h name
  | binary op lhs rhs ihl ihr =>
    refine (ihl m h).andThen fun lhs m' opened => ?_
    exact (ihr m' opened).andThen fun rhs m'' opened' => m''.inBody_binary opened' op lhs rhs
  | call callee args ih =>
    rw [lower]
    split
    · rfl
    next callable _ =>
      split
      · refine (inBody_lowerAll ih m h).andThen fun args m' opened => ?_
        exact (m'.inBody_emit opened _ _).map _
      · rfl

end Expr

variable {m m' : Module} {callable : String} {cause : LoweringError}

theorem Prototype.isInternal_declareOrFind {p : Prototype}
    (h : p.declareOrFind m = .error cause m') : cause.isInternal = false := by
  unfold declareOrFind at h
  split at h
  · simp [LoweringTarget.declare, Module.declare] at h
  · split at h
    · obtain ⟨rfl, -⟩ := Outcome.error.inj h
      rfl
    · split at h
      · cases h
      · obtain ⟨rfl, -⟩ := Outcome.error.inj h
        rfl

theorem Definition.isInternal_lowerBody {d : Definition}
    (h : d.lowerBody callable m = .error cause m') : cause.isInternal = false := by
  have opened : ((beginBody m callable d.prototype).state).builder.isSome = true := rfl
  unfold lowerBody at h
  rcases Outcome.andThen_eq_error.mp h with hb | ⟨_, begun, hb, h⟩
  · simp [LoweringTarget.beginBody, Module.beginBody] at hb
  rw [hb] at opened
  have body := d.body.inBody_lower begun opened
  rcases Outcome.andThen_eq_error.mp h with he | ⟨result, filled, he, h⟩
  · rwa [he] at body
  rw [he] at body
  simp only [LoweringTarget.finishBody, Module.finishBody] at h
  split at h
  next closed => simp [Lowered.InBody, closed] at body
  · split at h
    · obtain ⟨rfl, -⟩ := Outcome.error.inj h
      rfl
    · cases h

/-- A definition is refused for its name only if it is anonymous and the module has this name. -/
theorem Definition.isInternal_lower {d : Definition} (h : d.lower m = .error cause m')
    (free : d.prototype.isAnonymous = true → m.function? d.prototype.name = none) :
    cause.isInternal = false := by
  simp only [lower] at h
  split at h
  next reserved =>
    obtain ⟨found, anonymous⟩ := reserved
    simp [LoweringTarget.find?, free anonymous] at found
  · rcases Outcome.andThen_eq_error.mp h with hd | ⟨found, declared, hd, h⟩
    · exact Prototype.isInternal_declareOrFind hd
    · split at h
      · cases h
      next failed hb =>
        obtain ⟨rfl, -⟩ := Outcome.error.inj h
        exact isInternal_lowerBody hb

theorem Prototype.isInternal_lower {p : Prototype} (h : p.lower m = .error cause m')
    (named : p.isAnonymous = false) : cause.isInternal = false := by
  rw [lower, if_neg (by simp [named])] at h
  exact isInternal_declareOrFind h

end Formula
