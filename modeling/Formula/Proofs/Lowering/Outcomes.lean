import Formula.Proofs.Lowering.Emission
import Formula.Proofs.Ssa.FreshNames

/-! # What lowering leaves in a module

A function is declared at most once, and gets the parameters and the body that its
definition alone determines. A failure changes nothing but the body under construction.
-/

namespace Formula

open Ssa LoweringTarget

namespace Prototype

def slots (p : Prototype) : List String × NameSupply := NameSupply.empty.freshAll p.args

def scope (p : Prototype) : List (String × Value) :=
  (p.args.zip (p.slots.1.map .register)).reverse

def declaration (p : Prototype) : Function := ⟨p.name, p.slots.1, none⟩

end Prototype

/-- Whether lowering a definition gets as far as its body. -/
def Definition.OpensBody (d : Definition) (m : Module) : Prop :=
  ¬ ((m.function? d.prototype.name).isSome ∧ d.prototype.isAnonymous) ∧
    ∃ callable declared, d.prototype.declareOrFind m = .ok callable declared

namespace Ssa.Module

variable {m m' declared : Module} {name : String}

structure Idle (m : Module) : Prop where
  builder : m.builder = none
  scope : m.scope = []

theorem function?_declare (h : m.function? name = none) (f : Function) (hf : f.name = name) :
    { m with functions := m.functions ++ [f] }.function? name = some f := by
  unfold function? at h ⊢
  simp [h, hf]

theorem find?_define {f : Function} {functions : List Function}
    (h : functions.find? (·.name == name) = some f) (params : List String)
    (body : List Instruction) :
    (define name params body functions).find? (·.name == name) =
      some { f with params, body := some body } := by
  induction functions with
  | nil => simp at h
  | cons g rest ih =>
    by_cases hg : g.name = name
    · simp_all [define]
    · simpa [define, hg] using ih (by simpa [hg] using h)

theorem filter_declare (h : m.function? name = none) (f : Function) (hf : f.name = name) :
    (m.functions ++ [f]).filter (·.name ≠ name) = m.functions := by
  unfold function? at h
  simpa [hf, List.filter_eq_self] using h

@[simp] theorem abandonBody_abandonBody (m : Module) :
    m.abandonBody.abandonBody = m.abandonBody := rfl

theorem idle_abandonBody (m : Module) : m.abandonBody.Idle := ⟨rfl, rfl⟩

theorem Idle.abandonBody_eq (h : m.Idle) : m.abandonBody = m := by
  obtain ⟨hb, hs⟩ := h
  rcases m
  simp_all [abandonBody]

theorem abandonBody_emit (m : Module) (base : String) (instruction : String → Instruction) :
    (m.emit base instruction).state.abandonBody = m.abandonBody := by
  unfold emit
  split <;> rfl

theorem abandonBody_binary (m : Module) (op : Char) (lhs rhs : Value) :
    (m.binary op lhs rhs).state.abandonBody = m.abandonBody := by
  unfold binary
  split
  · rfl
  · split
    · rfl
    · simp [abandonBody_emit]
    · rw [Outcome.state_andThen_congr abandonBody]
      · exact abandonBody_emit m _ _
      · intro flag m
        simp [abandonBody_emit]

theorem abandonBody_finishBody {value : Value} {cause : LoweringError}
    (h : m.finishBody name value = .error cause m') : m'.abandonBody = m.abandonBody := by
  unfold finishBody at h
  split at h
  · simp only [Outcome.error.injEq] at h
    rw [h.2]
  · split at h
    · simp only [Outcome.error.injEq] at h
      rw [← h.2, abandonBody_abandonBody]
    · simp at h

end Ssa.Module

namespace Expr

theorem abandonBody_lowerAll {args : List Expr}
    (ih : ∀ arg ∈ args, ∀ m : Module, (arg.lower m).state.abandonBody = m.abandonBody)
    (m : Module) : (lowerAll args m).state.abandonBody = m.abandonBody := by
  induction args generalizing m with
  | nil => rfl
  | cons arg rest ih' =>
    rw [lowerAll, Outcome.state_andThen_congr Module.abandonBody]
    · exact ih arg (by simp) m
    · intro value m
      simpa using ih' (fun a ha => ih a (by simp [ha])) m

theorem abandonBody_lower (e : Expr) (m : Module) :
    (e.lower m).state.abandonBody = m.abandonBody := by
  induction e generalizing m with
  | number => rfl
  | reference name =>
    simp only [lower, LoweringTarget.argument, Module.argument]
    split <;> rfl
  | binary op lhs rhs ihl ihr =>
    rw [lower, Outcome.state_andThen_congr Module.abandonBody]
    · exact ihl m
    · intro a m
      rw [Outcome.state_andThen_congr Module.abandonBody]
      · exact ihr m
      · exact fun b m => m.abandonBody_binary op a b
  | call callee args ih =>
    rw [lower]
    split
    · rfl
    · split
      · rw [Outcome.state_andThen_congr Module.abandonBody]
        · exact abandonBody_lowerAll (fun arg ha => ih arg ha) m
        · intro values m
          simp [LoweringTarget.call, Module.call, Module.abandonBody_emit]
      · rfl

end Expr

namespace Prototype

variable {p : Prototype} {m declared : Module} {callable : String}

theorem declareOrFind_eq_ok (h : p.declareOrFind m = .ok callable declared) :
    callable = p.name ∧
      ((∃ f, m.function? p.name = some f ∧ f.body = none ∧ f.params.length = p.arity ∧
          declared = m) ∨
        (m.function? p.name = none ∧
          declared = { m with functions := m.functions ++ [p.declaration] })) := by
  unfold declareOrFind at h
  split at h
  next found =>
    obtain ⟨rfl, rfl⟩ := Outcome.ok.inj h
    exact ⟨rfl, .inr ⟨Option.map_eq_none_iff.mp found, rfl⟩⟩
  next found =>
    obtain ⟨f, hf, rfl⟩ := Option.map_eq_some_iff.mp found
    have name := Module.name_of_function? hf
    split at h
    · simp at h
    next bodiless =>
      split at h
      next count =>
        obtain ⟨rfl, rfl⟩ := Outcome.ok.inj h
        refine ⟨name, .inl ⟨f, hf, ?_, ?_, rfl⟩⟩
        · simpa [LoweringTarget.hasBody, name, hf] using bodiless
        · simpa [LoweringTarget.arity, name, hf] using count
      · simp at h

theorem state_declareOrFind_of_error {cause : LoweringError}
    (h : p.declareOrFind m = .error cause declared) : declared = m := by
  unfold declareOrFind at h
  split at h
  · simp [LoweringTarget.declare, Module.declare] at h
  · grind

/-- The function that a definition is given to has no body, and as many parameters. -/
theorem exists_function_of_declareOrFind (h : p.declareOrFind m = .ok callable declared) :
    ∃ f, declared.function? p.name = some f ∧ f.body = none ∧ f.params.length = p.arity := by
  obtain ⟨_, ⟨f, hf, bodiless, count, rfl⟩ | ⟨new, rfl⟩⟩ := declareOrFind_eq_ok h
  · exact ⟨f, hf, bodiless, count⟩
  · exact ⟨p.declaration, Module.function?_declare new _ rfl, rfl,
      NameSupply.length_freshAll .empty p.args⟩

end Prototype

namespace Definition

variable {d : Definition} {m m' declared : Module} {callable : String}

/-- Cleaning up removes the function that was declared for the body, and no other one. -/
theorem cleanUp_declared {failed : Module} {p : Prototype}
    (h : p.declareOrFind m = .ok callable declared)
    (kept : failed.abandonBody = declared.abandonBody) :
    cleanUp (find? m p.name).isSome callable failed = m.abandonBody := by
  obtain ⟨rfl, ⟨f, hf, _, _, rfl⟩ | ⟨new, rfl⟩⟩ := Prototype.declareOrFind_eq_ok h
  · simpa [cleanUp, LoweringTarget.find?, LoweringTarget.abandonBody, hf] using kept
  · -- Of all functions, only the one that was just declared has this name.
    have absent : (find? m p.name).isSome = false := by simp [LoweringTarget.find?, new]
    have erased := Module.filter_declare new p.declaration rfl
    rw [cleanUp, absent]
    change failed.abandonBody.erase p.name = m.abandonBody
    rw [kept, Module.erase]
    exact congrArg (fun functions => { m.abandonBody with functions }) erased

theorem lowerBody_eq_ok (h : d.lowerBody callable declared = .ok () m') :
    ∃ value code names,
      d.body.emit d.prototype.scope d.prototype.slots.2 = some (value, code, names) ∧
      declared.Resolves d.body.calls ∧
      m' = { declared.abandonBody with
        functions := Module.define callable d.prototype.slots.1 (code ++ [.ret value])
          declared.functions } := by
  unfold lowerBody at h
  obtain ⟨_, opened, ho, h⟩ := Outcome.andThen_eq_ok.mp h
  obtain ⟨value, filled, hv, h⟩ := Outcome.andThen_eq_ok.mp h
  obtain ⟨-, rfl⟩ := Outcome.ok.inj ho
  obtain ⟨⟨b, code, names, hb, he, rfl⟩, resolved⟩ := d.body.lower_appended rfl hv
  cases hb
  refine ⟨value, code, names, he, resolved.congr rfl, ?_⟩
  simp only [LoweringTarget.finishBody, Module.finishBody] at h
  split at h
  · simp at h
  · obtain ⟨-, rfl⟩ := Outcome.ok.inj h
    simp [Module.abandonBody, Prototype.slots]

theorem abandonBody_lowerBody {cause : LoweringError}
    (h : d.lowerBody callable declared = .error cause m') :
    m'.abandonBody = declared.abandonBody := by
  unfold lowerBody at h
  rcases Outcome.andThen_eq_error.mp h with ho | ⟨_, opened, ho, h⟩
  · simp [LoweringTarget.beginBody, Module.beginBody] at ho
  have same : opened.abandonBody = declared.abandonBody := by
    rw [← (Outcome.ok.inj ho).2]
    rfl
  have kept := d.body.abandonBody_lower opened
  rcases Outcome.andThen_eq_error.mp h with hb | ⟨value, filled, hb, h⟩
  · rw [hb] at kept
    exact kept.trans same
  · rw [hb] at kept
    exact (Module.abandonBody_finishBody h).trans (kept.trans same)

theorem lower_eq_ok (h : d.lower m = .ok callable m') :
    callable = d.prototype.name ∧ ∃ declared value code names,
      d.prototype.declareOrFind m = .ok callable declared ∧
      d.body.emit d.prototype.scope d.prototype.slots.2 = some (value, code, names) ∧
      declared.Resolves d.body.calls ∧
      m' = { declared.abandonBody with
        functions := Module.define callable d.prototype.slots.1 (code ++ [.ret value])
          declared.functions } := by
  simp only [lower] at h
  split at h
  · simp at h
  obtain ⟨found, declared, hd, h⟩ := Outcome.andThen_eq_ok.mp h
  split at h
  next filled hb =>
    obtain ⟨rfl, rfl⟩ := Outcome.ok.inj h
    obtain ⟨value, code, names, he, resolved, hm⟩ := lowerBody_eq_ok hb
    exact ⟨(Prototype.declareOrFind_eq_ok hd).1, declared, value, code, names, hd, he, resolved, hm⟩
  · simp at h

theorem function?_of_lower (h : d.lower m = .ok callable m') :
    callable = d.prototype.name ∧ ∃ value code names,
      d.body.emit d.prototype.scope d.prototype.slots.2 = some (value, code, names) ∧
      m'.function? callable =
        some ⟨callable, d.prototype.slots.1, some (code ++ [.ret value])⟩ := by
  obtain ⟨rfl, declared, value, code, names, hd, he, -, rfl⟩ := lower_eq_ok h
  obtain ⟨f, hf, -⟩ := Prototype.exists_function_of_declareOrFind hd
  refine ⟨rfl, value, code, names, he, ?_⟩
  rw [Module.function?, Module.find?_define hf, Module.name_of_function? hf]

/-- A failure leaves the module as it was, but for a body that was open before. -/
theorem lower_eq_error {cause : LoweringError} (h : d.lower m = .error cause m') :
    (¬ d.OpensBody m ∧ m' = m) ∨ (d.OpensBody m ∧ m' = m.abandonBody) := by
  simp only [lower] at h
  split at h
  next reserved =>
    obtain ⟨-, rfl⟩ := Outcome.error.inj h
    refine .inl ⟨fun opens => opens.1 ?_, rfl⟩
    simpa [LoweringTarget.find?] using reserved
  next allowed =>
    rcases Outcome.andThen_eq_error.mp h with hd | ⟨found, declared, hd, h⟩
    · refine .inl ⟨fun opens => ?_, Prototype.state_declareOrFind_of_error hd⟩
      obtain ⟨_, _, _, hd'⟩ := opens
      simp [hd] at hd'
    · refine .inr ⟨⟨by simpa [LoweringTarget.find?] using allowed, found, declared, hd⟩, ?_⟩
      split at h
      · simp at h
      next cause failed hb =>
        obtain ⟨-, rfl⟩ := Outcome.error.inj h
        exact cleanUp_declared hd (abandonBody_lowerBody hb)

end Definition

end Formula
