import Formula.Syntax.Basic

/-! # The meaning of expressions

An expression is evaluated directly, operands and arguments from left to right. Besides
its value, an evaluation has the calls that it makes, in order.
-/

namespace Formula

/-- The number 1: its exponent is the bias, and it has no fraction. -/
def Binary64.one : Binary64 := .ofMagnitude (1023 * Nat.pow 2 52)

/-- What numbers, operators and functions mean over the values `V`. -/
structure Interpretation (V : Type) where
  number : Binary64 → V
  add : V → V → V
  sub : V → V → V
  mul : V → V → V
  less : V → V → Bool
  call : String → List V → V

namespace Interpretation

variable {V : Type} (I : Interpretation V)

def truth (b : Bool) : V := I.number (if b then .one else .zero)

def operator? : Char → V → V → Option V
  | '+', a, b => some (I.add a b)
  | '-', a, b => some (I.sub a b)
  | '*', a, b => some (I.mul a b)
  | '<', a, b => some (I.truth (I.less a b))
  | _, _, _ => none

end Interpretation

structure Call (V : Type) where
  callee : String
  args : List V

/-- A result, unless there is none, with the calls that were made for it. -/
abbrev Traced (V : Type) (α : Type) : Type := Option (α × List (Call V))

namespace Traced

variable {V : Type} {α β : Type}

def ofOption (result : Option α) : Traced V α := result.map (·, [])

def andThen (first : Traced V α) (next : α → Traced V β) : Traced V β :=
  match first with
  | none => none
  | some (a, calls) => (next a).map fun (b, more) => (b, calls ++ more)

@[simp] theorem andThen_none (next : α → Traced V β) : andThen none next = none := rfl

@[simp] theorem andThen_some (a : α) (calls : List (Call V)) (next : α → Traced V β) :
    andThen (some (a, calls)) next = (next a).map fun (b, more) => (b, calls ++ more) := rfl

theorem andThen_eq_some {first : Traced V α} {next : α → Traced V β} {b : β}
    {calls : List (Call V)} :
    first.andThen next = some (b, calls) ↔
      ∃ a before after, first = some (a, before) ∧ next a = some (b, after) ∧
        calls = before ++ after := by
  rcases first with _ | ⟨a, before⟩
  · simp
  · simp only [andThen_some, Option.map_eq_some_iff, Prod.mk.injEq, Prod.exists,
      Option.some.injEq]
    constructor
    · rintro ⟨_, after, hn, rfl, rfl⟩
      exact ⟨a, before, after, ⟨rfl, rfl⟩, hn, rfl⟩
    · rintro ⟨_, _, after, ⟨rfl, rfl⟩, hn, rfl⟩
      exact ⟨b, after, hn, rfl, rfl⟩

end Traced

/-- What stands in the place of the last occurrence of a name. -/
def lastOf {α : Type} : List String → List α → String → Option α
  | n :: names, x :: xs, name =>
    (lastOf names xs name).or (if n = name then some x else none)
  | _, _, _ => none

section LastOf

variable {α β : Type}

/-- The last occurrence is the first one from the end. -/
theorem lookup_reverse_zip (names : List String) (xs : List α) (name : String) :
    (names.zip xs).reverse.lookup name = lastOf names xs name := by
  induction names generalizing xs with
  | nil => rfl
  | cons n names ih =>
    cases xs with
    | nil => rfl
    | cons x xs =>
      rw [List.zip_cons_cons, List.reverse_cons, List.lookup_append, ih, lastOf]
      by_cases h : n = name
      · simp [h]
      · simp [h, List.lookup_cons, beq_eq_false_iff_ne.mpr (Ne.symm h)]

theorem lastOf_map (f : α → β) (names : List String) (xs : List α) (name : String) :
    lastOf names (xs.map f) name = (lastOf names xs name).map f := by
  induction names generalizing xs with
  | nil => rfl
  | cons n names ih =>
    cases xs with
    | nil => rfl
    | cons x xs =>
      rw [List.map_cons, lastOf, lastOf, ih, Option.map_or]
      split <;> rfl

theorem mem_of_lastOf {names : List String} {xs : List α} {name : String} {x : α}
    (h : lastOf names xs name = some x) : x ∈ xs := by
  rw [← lookup_reverse_zip] at h
  obtain ⟨before, after, hs, -⟩ := List.lookup_eq_some_iff.mp h
  have mem : (name, x) ∈ (names.zip xs).reverse := by simp [hs]
  exact (List.of_mem_zip (List.mem_reverse.mp mem)).2

end LastOf

namespace Expr

variable {V : Type} (I : Interpretation V)

mutual

def eval (env : String → Option V) : Expr → Traced V V
  | number x => some (I.number x, [])
  | reference name => .ofOption (env name)
  | binary op lhs rhs =>
    (lhs.eval env).andThen fun a => (rhs.eval env).andThen fun b => .ofOption (I.operator? op a b)
  | call callee args =>
    (evalAll env args).andThen fun values => some (I.call callee values, [⟨callee, values⟩])

def evalAll (env : String → Option V) : List Expr → Traced V (List V)
  | [] => some ([], [])
  | e :: rest =>
    (e.eval env).andThen fun a => (evalAll env rest).andThen fun values => some (a :: values, [])

end

end Expr

end Formula
