import Formula.Ssa.Module

/-! # The code of an expression

Lowering an expression into an open body only appends instructions to it. Which ones
depends on the values of the argument names and on the names that are taken; of the
functions in the module only their parameter counts matter, and only for success.
-/

namespace Formula.Ssa

open LoweringTarget

/-- From the names taken so far: a result, the code for it, and the names taken after it. -/
abbrev Emission (α : Type) : Type := NameSupply → Option (α × List Instruction × NameSupply)

namespace Emission

variable {α β : Type}

def pure (value : α) : Emission α := fun names => some (value, [], names)

def register (base : String) (instruction : String → Instruction) : Emission String := fun names =>
  some ((names.fresh base).1, [instruction (names.fresh base).1], (names.fresh base).2)

def andThen (first : Emission α) (next : α → Emission β) : Emission β := fun names =>
  match first names with
  | none => none
  | some (value, code, names) =>
    (next value names).map fun (result, more, names) => (result, code ++ more, names)

def map (f : α → β) (first : Emission α) : Emission β := first.andThen fun value => pure (f value)

theorem andThen_eq_some {first : Emission α} {next : α → Emission β} {names last : NameSupply}
    {result : β} {code : List Instruction} :
    first.andThen next names = some (result, code, last) ↔
      ∃ value before middle after, first names = some (value, before, middle) ∧
        next value middle = some (result, after, last) ∧ code = before ++ after := by
  unfold andThen
  split
  next h => simp [h]
  next value before middle h =>
    simp only [h, Option.map_eq_some_iff, Prod.mk.injEq, Option.some.injEq, Prod.exists]
    constructor
    · rintro ⟨_, after, _, hn, rfl, rfl, rfl⟩
      exact ⟨value, before, middle, after, ⟨rfl, rfl, rfl⟩, hn, rfl⟩
    · rintro ⟨_, _, _, after, ⟨rfl, rfl, rfl⟩, hn, rfl⟩
      exact ⟨result, after, last, hn, rfl, rfl, rfl⟩

theorem map_eq_some {first : Emission α} {f : α → β} {names last : NameSupply} {result : β}
    {code : List Instruction} :
    first.map f names = some (result, code, last) ↔
      ∃ value, first names = some (value, code, last) ∧ f value = result := by
  simp only [map, andThen_eq_some, pure, Option.some.injEq, Prod.mk.injEq]
  constructor
  · rintro ⟨value, before, middle, after, h, ⟨rfl, rfl, rfl⟩, rfl⟩
    exact ⟨value, by simpa using h, rfl⟩
  · rintro ⟨value, h, rfl⟩
    exact ⟨value, code, last, [], h, ⟨rfl, rfl, rfl⟩, by simp⟩

def operation (op : Char) (lhs rhs : Value) : Emission Value :=
  match Operation.ofChar? op with
  | none => fun _ => none
  | some (.arithmetic op) => (register op.registerBase (.arithmetic op · lhs rhs)).map .register
  | some .less =>
    (register "cmptmp" (.compare · lhs rhs)).andThen fun flag =>
      (register "booltmp" (.widen · flag)).map .register

/-- A step between modules that appends the code of an emission to the open body. -/
def Appended (f : Emission α) (m : Module) (value : α) (m' : Module) : Prop :=
  ∃ b code names, m.builder = some b ∧ f b.names = some (value, code, names) ∧
    m' = { m with builder := some { b with instructions := b.instructions ++ code, names } }

variable {m m' m'' : Module} {value : α}

theorem Appended.isOpen {f : Emission α} (h : f.Appended m value m') : m'.builder.isSome := by
  obtain ⟨_, _, _, _, _, rfl⟩ := h
  rfl

theorem Appended.scope {f : Emission α} (h : f.Appended m value m') : m'.scope = m.scope := by
  obtain ⟨_, _, _, _, _, rfl⟩ := h
  rfl

theorem Appended.functions {f : Emission α} (h : f.Appended m value m') :
    m'.functions = m.functions := by
  obtain ⟨_, _, _, _, _, rfl⟩ := h
  rfl

theorem Appended.pure (h : m.builder.isSome) (value : α) : (pure value).Appended m value m := by
  obtain ⟨b, hb⟩ := Option.isSome_iff_exists.mp h
  refine ⟨b, [], b.names, hb, rfl, ?_⟩
  rcases m
  simp_all

theorem Appended.andThen {first : Emission α} {next : α → Emission β} {result : β}
    (h : first.Appended m value m') (h' : (next value).Appended m' result m'') :
    (first.andThen next).Appended m result m'' := by
  obtain ⟨b, before, middle, hb, hf, rfl⟩ := h
  obtain ⟨b', after, last, hb', hn, rfl⟩ := h'
  cases hb'
  refine ⟨b, before ++ after, last, hb, ?_, by simp⟩
  exact andThen_eq_some.mpr ⟨value, before, middle, after, hf, hn, rfl⟩

theorem Appended.map {first : Emission α} {f : α → β} (h : first.Appended m value m') :
    (first.map f).Appended m (f value) m' := by
  obtain ⟨b, code, names, hb, hf, rfl⟩ := h
  exact ⟨b, code, names, hb, map_eq_some.mpr ⟨value, hf, rfl⟩, rfl⟩

end Emission

namespace Module

/-- The functions that calls need are there, with as many parameters as there are arguments. -/
def Resolves (m : Module) (calls : List (String × Nat)) : Prop :=
  ∀ call ∈ calls, ∃ f, m.function? call.1 = some f ∧ f.params.length = call.2

variable {m m' : Module} {value lhs rhs : Value}

theorem Resolves.append {before after : List (String × Nat)} (h : m.Resolves before)
    (h' : m.Resolves after) : m.Resolves (before ++ after) := by
  intro call hc
  rcases List.mem_append.mp hc with hc | hc
  · exact h call hc
  · exact h' call hc

theorem function?_congr (h : m'.functions = m.functions) (name : String) :
    m'.function? name = m.function? name := by
  rw [function?, h, function?]

theorem Resolves.congr {calls : List (String × Nat)} (h : m'.Resolves calls)
    (hf : m'.functions = m.functions) : m.Resolves calls := fun call hc => by
  simpa only [function?_congr hf] using h call hc

theorem name_of_function? {name : String} {f : Function} (h : m.function? name = some f) :
    f.name = name := by
  simpa using List.find?_some h

theorem emit_appended {base result : String} {instruction : String → Instruction}
    (h : m.emit base instruction = .ok result m') :
    (Emission.register base instruction).Appended m result m' := by
  unfold emit at h
  split at h
  · simp at h
  next b hb =>
    simp only [Outcome.ok.injEq] at h
    obtain ⟨rfl, rfl⟩ := h
    exact ⟨b, _, _, hb, rfl, rfl⟩

theorem binary_appended {op : Char} (h : m.binary op lhs rhs = .ok value m') :
    (Emission.operation op lhs rhs).Appended m value m' := by
  unfold binary at h
  unfold Emission.operation
  split at h
  · simp at h
  · cases hop : Operation.ofChar? op with
    | none => simp [hop] at h
    | some operation =>
      simp only [hop] at h
      cases operation with
      | arithmetic op =>
        obtain ⟨result, hr, rfl⟩ := Outcome.map_eq_ok.mp h
        exact (emit_appended hr).map
      | less =>
        obtain ⟨flag, middle, hf, h⟩ := Outcome.andThen_eq_ok.mp h
        obtain ⟨result, hr, rfl⟩ := Outcome.map_eq_ok.mp h
        refine (emit_appended hf).andThen ?_
        exact (emit_appended hr).map

end Module

end Formula.Ssa

namespace Formula.Expr

open Ssa

mutual

/-- The code of an expression, where `scope` gives the values of argument names. -/
def emit (scope : List (String × Value)) : Expr → Emission Value
  | number value => .pure (.constant value)
  | reference name => fun names => (scope.lookup name).map (·, [], names)
  | binary op lhs rhs =>
    (lhs.emit scope).andThen fun lhs => (rhs.emit scope).andThen fun rhs => .operation op lhs rhs
  | call callee args =>
    (emitAll scope args).andThen fun args =>
      (Emission.register "calltmp" (.call · callee args)).map .register

def emitAll (scope : List (String × Value)) : List Expr → Emission (List Value)
  | [] => .pure []
  | e :: rest => (e.emit scope).andThen fun value => (emitAll scope rest).map (value :: ·)

end

theorem lowerAll_appended {args : List Expr}
    (ih : ∀ arg ∈ args, ∀ {m m' : Module} {value : Value}, m.builder.isSome →
      arg.lower m = .ok value m' → (arg.emit m.scope).Appended m value m' ∧ m.Resolves arg.calls)
    {m m' : Module} {values : List Value} (ho : m.builder.isSome)
    (h : lowerAll args m = .ok values m') :
    (emitAll m.scope args).Appended m values m' ∧ m.Resolves (listCalls args) := by
  induction args generalizing m values with
  | nil =>
    simp only [lowerAll, Outcome.ok.injEq] at h
    obtain ⟨rfl, rfl⟩ := h
    exact ⟨.pure ho [], by simp [Module.Resolves, listCalls]⟩
  | cons arg rest ih' =>
    rw [lowerAll] at h
    obtain ⟨value, middle, hv, h⟩ := Outcome.andThen_eq_ok.mp h
    obtain ⟨more, hm, rfl⟩ := Outcome.map_eq_ok.mp h
    obtain ⟨first, resolved⟩ := ih arg (by simp) ho hv
    obtain ⟨others, resolved'⟩ := ih' (fun a ha => ih a (by simp [ha])) first.isOpen hm
    rw [first.scope] at others
    exact ⟨first.andThen others.map, resolved.append (resolved'.congr first.functions)⟩

/-- Lowering into an open body appends the code of the expression, and its calls resolve. -/
theorem lower_appended (e : Expr) {m m' : Module} {value : Value} (ho : m.builder.isSome)
    (h : e.lower m = .ok value m') :
    (e.emit m.scope).Appended m value m' ∧ m.Resolves e.calls := by
  induction e generalizing m m' value with
  | number v =>
    simp only [lower, LoweringTarget.constant, Outcome.ok.injEq] at h
    obtain ⟨rfl, rfl⟩ := h
    exact ⟨.pure ho _, by simp [Module.Resolves, calls]⟩
  | reference name =>
    simp only [lower, LoweringTarget.argument, Module.argument] at h
    split at h
    next v hv =>
      simp only [Outcome.ok.injEq] at h
      obtain ⟨rfl, rfl⟩ := h
      obtain ⟨b, code, names, hb, hp, hm⟩ := Emission.Appended.pure ho v
      exact ⟨⟨b, code, names, hb, by simpa [emit, hv, Emission.pure] using hp, hm⟩,
        by simp [Module.Resolves, calls]⟩
    · simp at h
  | binary op lhs rhs ihl ihr =>
    rw [lower] at h
    obtain ⟨a, middle, ha, h⟩ := Outcome.andThen_eq_ok.mp h
    obtain ⟨b, last, hb, h⟩ := Outcome.andThen_eq_ok.mp h
    obtain ⟨left, resolved⟩ := ihl ho ha
    obtain ⟨right, resolved'⟩ := ihr left.isOpen hb
    rw [left.scope] at right
    rw [emit, calls]
    exact ⟨left.andThen (right.andThen (Module.binary_appended h)),
      resolved.append (resolved'.congr left.functions)⟩
  | call callee args ih =>
    rw [lower] at h
    split at h
    · simp at h
    next callable found =>
      split at h
      next count =>
        obtain ⟨values, middle, hv, h⟩ := Outcome.andThen_eq_ok.mp h
        obtain ⟨result, hr, rfl⟩ := Outcome.map_eq_ok.mp h
        obtain ⟨appended, resolved⟩ := lowerAll_appended (fun arg ha => ih arg ha) ho hv
        obtain ⟨f, hf, rfl⟩ := Option.map_eq_some_iff.mp found
        obtain rfl := Module.name_of_function? hf
        rw [emit, calls]
        refine ⟨appended.andThen (Module.emit_appended hr).map, resolved.append ?_⟩
        simpa [Module.Resolves, hf, LoweringTarget.arity] using count
      · simp at h

end Formula.Expr
