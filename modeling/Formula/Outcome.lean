/-! # Outcomes

A step that changes a state either gives a value or fails, and in both cases leaves a
state behind.
-/

namespace Formula

/-- A value or the cause of a failure, with the state that is left. -/
inductive Outcome (ε σ α : Type) where
  | ok (value : α) (state : σ)
  | error (cause : ε) (state : σ)
deriving DecidableEq

namespace Outcome

variable {ε σ α β : Type}

def state : Outcome ε σ α → σ
  | ok _ state => state
  | error _ state => state

def map (f : α → β) : Outcome ε σ α → Outcome ε σ β
  | ok value state => ok (f value) state
  | error cause state => error cause state

/-- Go on from the value and the state, unless there was a failure. -/
def andThen (outcome : Outcome ε σ α) (next : α → σ → Outcome ε σ β) : Outcome ε σ β :=
  match outcome with
  | ok value state => next value state
  | error cause state => error cause state

@[simp] theorem state_ok (value : α) (state : σ) : (ok value state : Outcome ε σ α).state = state :=
  rfl

@[simp] theorem state_error (cause : ε) (state : σ) :
    (error cause state : Outcome ε σ α).state = state := rfl

@[simp] theorem map_ok (f : α → β) (value : α) (state : σ) :
    (ok value state : Outcome ε σ α).map f = ok (f value) state := rfl

@[simp] theorem map_error (f : α → β) (cause : ε) (state : σ) :
    (error cause state : Outcome ε σ α).map f = error cause state := rfl

@[simp] theorem andThen_ok (value : α) (state : σ) (next : α → σ → Outcome ε σ β) :
    (ok value state).andThen next = next value state := rfl

@[simp] theorem andThen_error (cause : ε) (state : σ) (next : α → σ → Outcome ε σ β) :
    (error cause state).andThen next = error cause state := rfl

@[simp] theorem state_map (f : α → β) (outcome : Outcome ε σ α) :
    (outcome.map f).state = outcome.state := by
  cases outcome <;> rfl

/-- What the first step makes true of the state, and the second one keeps, is true in the end. -/
theorem state_andThen_of {P : σ → Prop} {outcome : Outcome ε σ α}
    {next : α → σ → Outcome ε σ β} (h : P outcome.state)
    (h' : ∀ value state, P state → P (next value state).state) :
    P (outcome.andThen next).state := by
  cases outcome with
  | ok value state => exact h' value state h
  | error => exact h

theorem state_andThen_congr {γ : Type} (view : σ → γ) {outcome : Outcome ε σ α}
    {next : α → σ → Outcome ε σ β} (h : ∀ value state, view (next value state).state = view state) :
    view (outcome.andThen next).state = view outcome.state := by
  cases outcome with
  | ok value state => exact h value state
  | error => rfl

variable {outcome : Outcome ε σ α} {f : α → β} {next : α → σ → Outcome ε σ β}
variable {value : β} {cause : ε} {last : σ}

theorem andThen_congr {next' : α → σ → Outcome ε σ β}
    (h : ∀ v state, outcome = ok v state → next v state = next' v state) :
    outcome.andThen next = outcome.andThen next' := by
  cases outcome with
  | ok v state => exact h v state rfl
  | error => rfl

theorem andThen_assoc {γ : Type} {next : α → σ → Outcome ε σ β} {last : β → σ → Outcome ε σ γ} :
    (outcome.andThen next).andThen last =
      outcome.andThen fun value state => (next value state).andThen last := by
  cases outcome <;> rfl

theorem map_eq_ok : outcome.map f = ok value last ↔ ∃ v, outcome = ok v last ∧ f v = value := by
  cases outcome <;> grind [map]

theorem map_eq_error : outcome.map f = error cause last ↔ outcome = error cause last := by
  cases outcome <;> simp

theorem andThen_eq_ok :
    outcome.andThen next = ok value last ↔
      ∃ v state, outcome = ok v state ∧ next v state = ok value last := by
  cases outcome <;> grind [andThen]

theorem andThen_eq_error :
    outcome.andThen next = error cause last ↔
      outcome = error cause last ∨
        ∃ v state, outcome = ok v state ∧ next v state = error cause last := by
  cases outcome <;> grind [andThen]

end Outcome

end Formula
