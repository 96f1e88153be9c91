import Formula.Proofs.Expr.Evaluation
import Formula.Ssa.Basic

/-! # Execution of bodies

Instructions are executed in order over registers that hold numbers or truth values. An
instruction that reads a register of the wrong kind, or one that was not assigned, is stuck.
-/

namespace Formula.Ssa

variable {V : Type}

/-- What a register holds. -/
inductive Datum (V : Type) where
  | number (value : V)
  | truth (value : Bool)

abbrev Registers (V : Type) : Type := String → Option (Datum V)

namespace Registers

def ofArguments (params : List String) (values : List V) : Registers V := fun name =>
  ((params.zip values).lookup name).map .number

def assign (r : Registers V) (name : String) (datum : Datum V) : Registers V := fun other =>
  if other = name then some datum else r other

def number? (I : Interpretation V) (r : Registers V) : Value → Option V
  | .constant x => some (I.number x)
  | .register name =>
    match r name with
    | some (.number value) => some value
    | _ => none

def truth? (r : Registers V) (name : String) : Option Bool :=
  match r name with
  | some (.truth value) => some value
  | _ => none

end Registers

variable (I : Interpretation V)

def Arithmetic.apply : Arithmetic → V → V → V
  | add => I.add
  | sub => I.sub
  | mul => I.mul

def Instruction.exec (r : Registers V) : Instruction → Traced V (Registers V)
  | arithmetic op result lhs rhs => .ofOption do
    let a ← r.number? I lhs
    let b ← r.number? I rhs
    return r.assign result (.number (op.apply I a b))
  | compare result lhs rhs => .ofOption do
    let a ← r.number? I lhs
    let b ← r.number? I rhs
    return r.assign result (.truth (I.less a b))
  | widen result flag => .ofOption do
    let b ← r.truth? flag
    return r.assign result (.number (I.truth b))
  | call result callee args =>
    (args.mapM (r.number? I)).map fun values =>
      (r.assign result (.number (I.call callee values)), [⟨callee, values⟩])
  | ret _ => none

def execAll : List Instruction → Registers V → Traced V (Registers V)
  | [], r => some (r, [])
  | i :: rest, r => (i.exec I r).andThen (execAll rest)

/-- Execute a body up to the first return. -/
def run : List Instruction → Registers V → Traced V V
  | [], _ => none
  | .ret value :: _, r => .ofOption (r.number? I value)
  | i :: rest, r => (i.exec I r).andThen (run rest)

variable {I} {r r' r'' : Registers V}

theorem execAll_append {before after : List Instruction} {calls more : List (Call V)}
    (h : execAll I before r = some (r', calls)) (h' : execAll I after r' = some (r'', more)) :
    execAll I (before ++ after) r = some (r'', calls ++ more) := by
  induction before generalizing r calls with
  | nil =>
    cases h
    exact h'
  | cons i rest ih =>
    obtain ⟨next, first, later, hi, hr, rfl⟩ := Traced.andThen_eq_some.mp h
    rw [List.append_assoc]
    exact Traced.andThen_eq_some.mpr ⟨next, first, later ++ more, hi, ih hr, rfl⟩

theorem run_cons {i : Instruction} {step : Registers V × List (Call V)}
    (h : i.exec I r = some step) (rest : List Instruction) :
    run I (i :: rest) r = (i.exec I r).andThen (run I rest) := by
  cases i with
  | ret => cases h
  | _ => rfl

theorem run_append_ret {code : List Instruction} {calls : List (Call V)} {value : Value} {x : V}
    (h : execAll I code r = some (r', calls)) (hv : r'.number? I value = some x) :
    run I (code ++ [.ret value]) r = some (x, calls) := by
  induction code generalizing r calls with
  | nil =>
    cases h
    simp [run, Traced.ofOption, hv]
  | cons i rest ih =>
    obtain ⟨next, first, later, hi, hr, rfl⟩ := Traced.andThen_eq_some.mp h
    rw [List.cons_append, run_cons hi]
    exact Traced.andThen_eq_some.mpr ⟨next, first, later, hi, ih hr, rfl⟩

namespace Registers

/-- Registers that keep what was assigned in others. -/
def Le (r r' : Registers V) : Prop := ∀ name datum, r name = some datum → r' name = some datum

theorem Le.refl (r : Registers V) : r.Le r := fun _ _ h => h

theorem Le.trans (h : r.Le r') (h' : r'.Le r'') : r.Le r'' := fun _ _ hd => h' _ _ (h _ _ hd)

def Within (r : Registers V) (names : List String) : Prop :=
  ∀ name datum, r name = some datum → name ∈ names

@[simp] theorem assign_self (r : Registers V) (name : String) (datum : Datum V) :
    r.assign name datum name = some datum := by
  simp [assign]

theorem Within.le_assign {names : List String} (h : r.Within names) {name : String}
    (hn : name ∉ names) (datum : Datum V) : r.Le (r.assign name datum) := by
  intro other d hd
  have other_ne : other ≠ name := by
    rintro rfl
    exact hn (h other d hd)
  simpa [assign, other_ne] using hd

theorem Within.assign {names : List String} (h : r.Within names) (name : String)
    (datum : Datum V) : (r.assign name datum).Within (name :: names) := by
  intro other d hd
  by_cases same : other = name
  · simp [same]
  · simp only [Registers.assign, same, if_false] at hd
    exact List.mem_cons_of_mem _ (h other d hd)

theorem number?_register {name : String} {x : V} :
    r.number? I (.register name) = some x ↔ r name = some (.number x) := by
  simp only [number?]
  split <;> simp_all

theorem Le.number? (h : r.Le r') {value : Value} {x : V} (hx : r.number? I value = some x) :
    r'.number? I value = some x := by
  cases value with
  | constant => exact hx
  | register name => exact number?_register.mpr (h _ _ (number?_register.mp hx))

end Registers

end Formula.Ssa
