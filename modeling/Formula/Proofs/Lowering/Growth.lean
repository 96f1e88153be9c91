import Formula.Proofs.Lowering.Closed

/-! # Modules grow

Lowering adds functions behind those that a module has, and gives a body to one that has
none. A function with a body stays as it is, and so does the function around an
expression: no text can spell its name, and an expression is not lowered while it exists.
-/

namespace Formula

open Ssa LoweringTarget

namespace Ssa

/-- What a function can become: a body, and names for its parameters, are given to it once. -/
inductive Function.Becomes : Function → Function → Prop where
  | same (f : Function) : Becomes f f
  | defined {f : Function} {params : List String} (body : List Instruction) : f.body = none →
    params.length = f.params.length → Becomes f ⟨f.name, params, some body⟩

namespace Function.Becomes

variable {f g h : Function}

theorem name_eq (becomes : f.Becomes g) : g.name = f.name := by
  cases becomes <;> rfl

theorem trans (first : f.Becomes g) (second : g.Becomes h) : f.Becomes h := by
  cases first with
  | same => exact second
  | defined body bodiless count =>
    cases second with
    | same => exact .defined body bodiless count
    | defined _ bodiless' => cases bodiless'

end Function.Becomes

namespace Module

variable {m m' last : Module} {name other : String} {params : List String}
variable {body : List Instruction}

def wrappers (m : Module) : List Function :=
  m.functions.filter (·.name = Prototype.anonymousName)

/-- Each function keeps its place, those around expressions stay, and no new body is left open. -/
structure Grows (m m' : Module) : Prop where
  kept (i : Nat) (f : Function) : m.functions[i]? = some f →
    ∃ g, m'.functions[i]? = some g ∧ f.Becomes g
  wrappers : m'.wrappers = m.wrappers
  construction : m'.Idle ∨ m'.builder = m.builder ∧ m'.scope = m.scope

theorem Grows.refl (m : Module) : m.Grows m :=
  ⟨fun _ f hf => ⟨f, hf, .same f⟩, rfl, .inr ⟨rfl, rfl⟩⟩

theorem Grows.trans (first : m.Grows m') (second : m'.Grows last) : m.Grows last where
  kept := by
    intro i f hf
    obtain ⟨g, hg, becomes⟩ := first.kept i f hf
    obtain ⟨h, hh, later⟩ := second.kept i g hg
    exact ⟨h, hh, becomes.trans later⟩
  wrappers := second.wrappers.trans first.wrappers
  construction := by
    rcases second.construction with idle | ⟨builder, scope⟩
    · exact .inl idle
    · rcases first.construction with idle | ⟨builder', scope'⟩
      · exact .inl ⟨builder.trans idle.builder, scope.trans idle.scope⟩
      · exact .inr ⟨builder.trans builder', scope.trans scope'⟩

theorem Grows.names_isPrefix (h : m.Grows m') :
    m.functions.map (·.name) <+: m'.functions.map (·.name) := by
  rw [List.prefix_iff_getElem?]
  intro i hi
  rw [List.length_map] at hi
  obtain ⟨g, hg, becomes⟩ := h.kept i m.functions[i] (List.getElem?_eq_getElem hi)
  rw [List.getElem?_map, hg, Option.map_some, becomes.name_eq, List.getElem_map]

theorem grows_abandonBody (m : Module) : m.Grows m.abandonBody :=
  ⟨(Grows.refl m).kept, rfl, .inl m.idle_abandonBody⟩

theorem grows_declare (m : Module) {f : Function} (hn : f.name ≠ Prototype.anonymousName) :
    m.Grows { m with functions := m.functions ++ [f] } where
  kept := by
    intro i g hg
    obtain ⟨inside, -⟩ := List.getElem?_eq_some_iff.mp hg
    exact ⟨g, (List.getElem?_append_left inside).trans hg, .same g⟩
  wrappers := by simp [Module.wrappers, hn]
  construction := .inr ⟨rfl, rfl⟩

/-- The first function of a name has no body, so that giving it one replaces none. -/
theorem becomes_define {f : Function} {functions : List Function}
    (found : functions.find? (·.name == name) = some f) (bodiless : f.body = none)
    (count : params.length = f.params.length) {i : Nat} {g : Function}
    (hg : functions[i]? = some g) :
    ∃ h, (define name params body functions)[i]? = some h ∧ g.Becomes h := by
  induction functions generalizing i with
  | nil => cases hg
  | cons first rest ih =>
    by_cases same : first.name = name
    · rw [define, if_pos same]
      obtain rfl : first = f := by simpa [same] using found
      cases i with
      | zero =>
        obtain rfl := Option.some.inj hg
        exact ⟨_, rfl, .defined body bodiless count⟩
      | succ i => exact ⟨g, hg, .same g⟩
    · rw [define, if_neg same]
      cases i with
      | zero => exact ⟨g, hg, .same g⟩
      | succ i => exact ih (by simpa [same] using found) hg

theorem filter_define_of_ne (h : name ≠ other) (functions : List Function) :
    (define name params body functions).filter (·.name = other) =
      functions.filter (·.name = other) := by
  induction functions with
  | nil => rfl
  | cons f rest ih =>
    unfold define
    split
    next same => simp [same, h]
    · simp only [List.filter_cons, ih]

theorem grows_define {f : Function} (found : m.function? name = some f) (bodiless : f.body = none)
    (count : params.length = f.params.length) (hn : name ≠ Prototype.anonymousName)
    (body : List Instruction) :
    m.Grows { m with functions := define name params body m.functions } :=
  ⟨fun _ _ => becomes_define found bodiless count, filter_define_of_ne hn m.functions,
    .inr ⟨rfl, rfl⟩⟩

end Module

end Ssa

namespace Prototype

variable {p : Prototype} {m m' : Module} {callable : String}

theorem grows_declareOrFind (h : p.declareOrFind m = .ok callable m')
    (hn : p.name ≠ anonymousName) : m.Grows m' := by
  obtain ⟨-, ⟨_, _, _, _, rfl⟩ | ⟨-, rfl⟩⟩ := declareOrFind_eq_ok h
  · exact .refl _
  · exact m.grows_declare hn

theorem grows_lower (p : Prototype) (m : Module) : m.Grows (p.lower m).state := by
  cases h : p.lower m with
  | ok callable m' =>
    unfold lower at h
    split at h
    · cases h
    next spellable => exact grows_declareOrFind h (by simpa [isAnonymous] using spellable)
  | error cause m' =>
    obtain rfl := p.lower_eq_error h
    exact .refl _

end Prototype

namespace Definition

variable {d : Definition} {m m' : Module} {callable : String}

theorem grows_of_lower_eq_error {cause : LoweringError} (h : d.lower m = .error cause m') :
    m.Grows m' := by
  obtain ⟨-, rfl⟩ | ⟨-, rfl⟩ := lower_eq_error h
  · exact .refl _
  · exact m.grows_abandonBody

theorem grows_lower (hn : d.prototype.name ≠ Prototype.anonymousName) (m : Module) :
    m.Grows (d.lower m).state := by
  cases h : d.lower m with
  | ok callable m' =>
    obtain ⟨rfl, declared, value, code, names, hd, -, -, rfl⟩ := lower_eq_ok h
    obtain ⟨f, hf, bodiless, count⟩ := Prototype.exists_function_of_declareOrFind hd
    have slots : d.prototype.slots.1.length = f.params.length := by
      rw [count]
      exact NameSupply.length_freshAll .empty _
    have given := Module.grows_define hf bodiless slots hn (code ++ [.ret value])
    exact ((Prototype.grows_declareOrFind hd hn).trans given).trans (Module.grows_abandonBody _)
  | error cause m' => exact grows_of_lower_eq_error h

end Definition

end Formula
