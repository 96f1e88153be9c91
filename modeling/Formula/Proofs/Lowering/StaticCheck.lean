import Formula.Proofs.Lowering.Outcomes

/-! # A static check

Whether a construct can be lowered, and why not, is told by the construct and by the functions
of the module, before anything is changed. The body of a definition is walked over in the order
in which it is lowered, and a call in it may name the function that is being defined. An error
that the check does not know is never the cause of a failure.
-/

namespace Formula

open Ssa LoweringTarget

/-- The parameter counts of the functions that a call can name. -/
abbrev Signatures : Type := String → Option Nat

def Signatures.extend (known : Signatures) (p : Prototype) : Signatures := fun name =>
  if name = p.name then some p.arity else known name

def Ssa.Module.signatures (m : Module) : Signatures := fun name =>
  (m.function? name).map (·.params.length)

namespace Expr

mutual

/-- The first error of an expression whose references must be to the given names. -/
def firstError (names : List String) (known : Signatures) : Expr → Option LoweringError
  | number _ => none
  | reference name => if name ∈ names then none else some (.unknownVariable name)
  | binary op lhs rhs =>
    (lhs.firstError names known).or <| (rhs.firstError names known).or <|
      if op ∈ ['+', '-', '*', '<'] then none else some (.unknownOperator op)
  | call callee args =>
    match known callee with
    | none => some (.unknownFunction callee)
    | some arity =>
      if arity = args.length then listFirstError names known args
      else some (.arityMismatch callee arity args.length)

def listFirstError (names : List String) (known : Signatures) : List Expr → Option LoweringError
  | [] => none
  | e :: rest => (e.firstError names known).or (listFirstError names known rest)

end

end Expr

namespace Prototype

def conflict? (p : Prototype) (m : Module) : Option LoweringError :=
  match m.function? p.name with
  | none => none
  | some f =>
    if f.body.isSome then some (.redefinition p.name)
    else if f.params.length = p.arity then none
    else some (.signatureMismatch p.name f.params.length p.arity)

def check (p : Prototype) (m : Module) : Option LoweringError :=
  if p.isAnonymous then some (.reservedName p.name) else p.conflict? m

end Prototype

/-- Why a definition cannot be lowered. -/
def Definition.check (d : Definition) (m : Module) : Option LoweringError :=
  if d.prototype.isAnonymous ∧ (m.function? d.prototype.name).isSome then
    some (.reservedName d.prototype.name)
  else
    (d.prototype.conflict? m).or
      (d.body.firstError d.prototype.args (m.signatures.extend d.prototype))

namespace Lowered

variable {α β : Type} {P : α → Module → Prop} {Q : β → Module → Prop}
variable {error? error'? : Option LoweringError} {outcome : Lowered Module α}

/-- A step fails with the error, or without one has a result that satisfies `P`. -/
def Foretold (error? : Option LoweringError) (P : α → Module → Prop) : Lowered Module α → Prop
  | .ok value m => error? = none ∧ P value m
  | .error cause _ => error? = some cause

theorem Foretold.andThen {next : α → Module → Lowered Module β} (h : outcome.Foretold error? P)
    (h' : ∀ value m, P value m → Foretold error'? Q (next value m)) :
    Foretold (error?.or error'?) Q (outcome.andThen next) := by
  cases outcome with
  | ok value m =>
    obtain ⟨rfl, holds⟩ := h
    exact h' value m holds
  | error cause m =>
    obtain rfl := h
    rfl

theorem Foretold.mono {Q : α → Module → Prop} (h : outcome.Foretold error? P)
    (h' : ∀ value m, P value m → Q value m) : outcome.Foretold error? Q := by
  cases outcome with
  | ok value m => exact ⟨h.1, h' value m h.2⟩
  | error cause m => exact h

theorem Foretold.map {f : α → β} (h : outcome.Foretold error? P)
    (h' : ∀ value m, P value m → Q (f value) m) : Foretold error? Q (outcome.map f) := by
  cases outcome with
  | ok value m => exact ⟨h.1, h' value m h.2⟩
  | error cause m => exact h

theorem Foretold.error_iff (h : outcome.Foretold error? P) (cause : LoweringError) :
    (∃ m, outcome = .error cause m) ↔ error? = some cause := by
  cases outcome with
  | ok value m => simp [h.1]
  | error found m =>
    obtain rfl := h
    simp

theorem Foretold.ok_iff (h : outcome.Foretold error? P) :
    (∃ value m, outcome = .ok value m ∧ P value m) ↔ error? = none := by
  cases outcome with
  | ok value m => exact ⟨fun _ => h.1, fun _ => ⟨value, m, rfl, h.2⟩⟩
  | error cause m =>
    obtain rfl := h
    simp

end Lowered

open Lowered

theorem Ssa.Operation.isSome_ofChar?_iff {op : Char} :
    (ofChar? op).isSome = true ↔ op ∈ ['+', '-', '*', '<'] := by
  unfold ofChar?
  split <;> simp_all

namespace Ssa.Module

variable {m : Module} {names : List String} {known : Signatures}

structure BodyOf (names : List String) (known : Signatures) (m : Module) : Prop where
  opened : m.builder.isSome = true
  scope : ∀ name, (m.scope.lookup name).isSome = true ↔ name ∈ names
  signatures : m.signatures = known

theorem foretold_argument (h : m.BodyOf names known) (name : String) :
    Foretold (if name ∈ names then none else some (.unknownVariable name))
      (fun _ => BodyOf names known) (m.argument name) := by
  have bound := h.scope name
  unfold argument
  cases found : m.scope.lookup name with
  | some value =>
    rw [found] at bound
    rw [if_pos (bound.mp rfl)]
    exact ⟨rfl, h⟩
  | none =>
    rw [found] at bound
    rw [if_neg fun mem => absurd (bound.mpr mem) (by simp)]
    rfl

theorem foretold_emit (h : m.BodyOf names known) (base : String)
    (instruction : String → Instruction) :
    Foretold none (fun _ => BodyOf names known) (m.emit base instruction) := by
  obtain ⟨b, open_⟩ := Option.isSome_iff_exists.mp h.opened
  rw [emit, open_]
  exact ⟨rfl, rfl, h.scope, h.signatures⟩

theorem foretold_binary (h : m.BodyOf names known) (op : Char) (lhs rhs : Value) :
    Foretold (if op ∈ ['+', '-', '*', '<'] then none else some (.unknownOperator op))
      (fun _ => BodyOf names known) (m.binary op lhs rhs) := by
  have opened : ¬ m.builder.isNone = true := by simpa [Option.isSome_iff_ne_none] using h.opened
  have operator := @Operation.isSome_ofChar?_iff op
  rw [binary, if_neg opened]
  cases found : Operation.ofChar? op with
  | none =>
    rw [found] at operator
    rw [if_neg fun mem => absurd (operator.mpr mem) (by simp)]
    rfl
  | some operation =>
    rw [found] at operator
    rw [if_pos (operator.mp rfl)]
    cases operation with
    | arithmetic op => exact (foretold_emit h _ _).map fun _ _ body => body
    | less =>
      apply (foretold_emit h _ _).andThen
      intro flag m' body
      exact (foretold_emit body _ _).map fun _ _ body' => body'

theorem foretold_call (h : m.BodyOf names known) (callee : String) (args : List Value) :
    Foretold none (fun _ => BodyOf names known) (m.call callee args) :=
  (foretold_emit h _ _).map fun _ _ body => body

theorem foretold_finishBody (h : m.BodyOf names known) {name : String}
    (found : (known name).isSome = true) (result : Value) :
    Foretold none (fun _ _ => True) (m.finishBody name result) := by
  obtain ⟨b, opened⟩ := Option.isSome_iff_exists.mp h.opened
  have present : ¬ (m.function? name).isNone = true := by
    simpa [← h.signatures, signatures, Option.isSome_iff_ne_none] using found
  simp only [finishBody, opened, if_neg present]
  exact ⟨rfl, trivial⟩

end Ssa.Module

namespace Expr

variable {names : List String} {known : Signatures}

theorem foretold_lowerAll {args : List Expr}
    (ih : ∀ arg ∈ args, ∀ m : Module, m.BodyOf names known →
      Foretold (arg.firstError names known) (fun _ => Module.BodyOf names known) (arg.lower m))
    (m : Module) (h : m.BodyOf names known) :
    Foretold (listFirstError names known args) (fun _ => Module.BodyOf names known)
      (lowerAll args m) := by
  induction args generalizing m with
  | nil => exact ⟨rfl, h⟩
  | cons arg rest ih' =>
    apply (ih arg List.mem_cons_self m h).andThen
    intro value m' body
    have others := ih' (fun a mem => ih a (List.mem_cons_of_mem _ mem)) m' body
    exact others.map fun _ _ body' => body'

/-- An expression is lowered into a body that knows its names, or fails with its first error. -/
theorem foretold_lower (e : Expr) (m : Module) (h : m.BodyOf names known) :
    Foretold (e.firstError names known) (fun _ => Module.BodyOf names known) (e.lower m) := by
  induction e generalizing m with
  | number value => exact ⟨rfl, h⟩
  | reference name => exact m.foretold_argument h name
  | binary op lhs rhs ihl ihr =>
    apply (ihl m h).andThen
    intro a m' body
    apply (ihr m' body).andThen
    intro b m'' body'
    exact m''.foretold_binary body' op a b
  | call callee args ih =>
    have signature : known callee = (m.function? callee).map (·.params.length) := by
      rw [← h.signatures]
      rfl
    rw [lower, firstError, signature]
    cases found : m.function? callee with
    | none => simp [LoweringTarget.find?, found, Foretold]
    | some f =>
      have name := Module.name_of_function? found
      simp only [LoweringTarget.find?, found, Option.map_some, LoweringTarget.arity, name,
        Option.getD_some]
      split
      next count =>
        have called := (foretold_lowerAll ih m h).andThen fun values m' body =>
          m'.foretold_call body callee values
        rwa [Option.or_none] at called
      · rfl

end Expr

namespace Prototype

variable {p : Prototype} {m : Module}

theorem isSome_lookup_scope_iff (p : Prototype) (name : String) :
    (p.scope.lookup name).isSome = true ↔ name ∈ p.args := by
  have length : (p.slots.1.map Value.register).length = p.args.length := by
    rw [List.length_map]
    exact NameSupply.length_freshAll .empty p.args
  have keys : p.scope.map (·.1) = p.args.reverse := by
    rw [scope, List.map_reverse, List.map_fst_zip (Nat.le_of_eq length.symm)]
  rw [List.lookup_isSome_iff, ← List.mem_reverse, ← keys, List.mem_map]
  constructor
  · rintro ⟨pair, mem, same⟩
    exact ⟨pair, mem, (beq_iff_eq.mp same).symm⟩
  · rintro ⟨pair, mem, same⟩
    exact ⟨pair, mem, beq_iff_eq.mpr same.symm⟩

theorem signatures_declare (h : m.function? p.name = none) :
    { m with functions := m.functions ++ [p.declaration] }.signatures =
      m.signatures.extend p := by
  funext name
  by_cases same : name = p.name
  · subst same
    have count : p.declaration.params.length = p.arity :=
      NameSupply.length_freshAll .empty p.args
    rw [Module.signatures, Module.function?_declare h _ rfl, Signatures.extend, if_pos rfl,
      Option.map_some, count]
  · have other : (p.declaration.name == name) = false := beq_eq_false_iff_ne.mpr (Ne.symm same)
    rw [Signatures.extend, if_neg same, Module.signatures, Module.signatures, Module.function?,
      List.find?_append, List.find?_singleton, other, Module.function?]
    simp

theorem signatures_extend_of_function? {f : Function} (h : m.function? p.name = some f)
    (count : f.params.length = p.arity) : m.signatures.extend p = m.signatures := by
  funext name
  by_cases same : name = p.name
  · subst same
    rw [Signatures.extend, if_pos rfl, Module.signatures, h, Option.map_some, count]
  · exact if_neg same

theorem foretold_declareOrFind (p : Prototype) (m : Module) :
    Foretold (p.conflict? m) (fun callable declared => callable = p.name ∧
      declared.signatures = m.signatures.extend p) (p.declareOrFind m) := by
  unfold conflict? declareOrFind
  cases found : m.function? p.name with
  | none =>
    simp only [LoweringTarget.find?, found]
    exact ⟨rfl, rfl, signatures_declare found⟩
  | some f =>
    have name := Module.name_of_function? found
    simp only [LoweringTarget.find?, found, Option.map_some, LoweringTarget.arity, name,
      Option.getD_some, LoweringTarget.hasBody, Option.any_some]
    split
    · rfl
    · split
      next count => exact ⟨rfl, rfl, (signatures_extend_of_function? found count).symm⟩
      · rfl

theorem foretold_lower (p : Prototype) (m : Module) :
    Foretold (p.check m) (fun callable _ => callable = p.name) (p.lower m) := by
  unfold check lower
  split
  · rfl
  · have declared := p.foretold_declareOrFind m
    exact declared.mono fun _ _ holds => holds.1

end Prototype

namespace Definition

variable {d : Definition} {m : Module}

theorem bodyOf_beginBody (d : Definition) (m : Module) (callable : String) :
    Module.BodyOf d.prototype.args m.signatures (beginBody m callable d.prototype).state :=
  ⟨rfl, d.prototype.isSome_lookup_scope_iff, rfl⟩

theorem foretold_lowerBody (d : Definition) {declared : Module} {callable : String}
    (found : (declared.signatures callable).isSome = true) :
    Foretold (d.body.firstError d.prototype.args declared.signatures) (fun _ _ => True)
      (d.lowerBody callable declared) := by
  have closed := (d.body.foretold_lower _ (d.bodyOf_beginBody declared callable)).andThen
    fun result m' filled => m'.foretold_finishBody filled found result
  rwa [Option.or_none] at closed

theorem foretold_lower (d : Definition) (m : Module) :
    Foretold (d.check m) (fun callable _ => callable = d.prototype.name) (d.lower m) := by
  have present : (LoweringTarget.find? m d.prototype.name).isSome =
      (m.function? d.prototype.name).isSome := Option.isSome_map
  rw [check, lower]
  simp only [present, and_comm (a := d.prototype.isAnonymous = true)]
  split
  · rfl
  · apply (d.prototype.foretold_declareOrFind m).andThen
    rintro callable declared ⟨rfl, extended⟩
    have found : (declared.signatures d.prototype.name).isSome = true := by
      simp [extended, Signatures.extend]
    have body := d.foretold_lowerBody found
    rw [extended] at body
    cases closed : d.lowerBody d.prototype.name declared with
    | ok value m' =>
      rw [closed] at body
      exact ⟨body.1, rfl⟩
    | error cause m' =>
      rw [closed] at body
      exact body

end Definition

/-- An error in a body: a callee that is unknown is really not among the signatures. -/
structure LoweringError.InBodyOf (known : Signatures) (cause : LoweringError) : Prop where
  insertionPoint : cause ≠ .noInsertionPoint
  target : cause ≠ .noTarget
  function : ∀ name, cause = .unknownFunction name → known name = none

namespace Expr

variable {names : List String} {known : Signatures} {cause : LoweringError}

theorem inBodyOf_listFirstError {args : List Expr}
    (ih : ∀ arg ∈ args, arg.firstError names known = some cause → cause.InBodyOf known)
    (h : listFirstError names known args = some cause) : cause.InBodyOf known := by
  induction args with
  | nil => cases h
  | cons arg rest ih' =>
    rw [listFirstError, Option.or_eq_some_iff] at h
    rcases h with first | ⟨-, later⟩
    · exact ih arg List.mem_cons_self first
    · exact ih' (fun a mem => ih a (List.mem_cons_of_mem _ mem)) later

theorem inBodyOf_firstError (e : Expr) (h : e.firstError names known = some cause) :
    cause.InBodyOf known := by
  induction e with
  | number => cases h
  | reference name =>
    rw [firstError] at h
    split at h
    · cases h
    · cases h
      exact ⟨nofun, nofun, nofun⟩
  | binary op lhs rhs ihl ihr =>
    rw [firstError, Option.or_eq_some_iff, Option.or_eq_some_iff] at h
    rcases h with left | ⟨-, right | ⟨-, operator⟩⟩
    · exact ihl left
    · exact ihr right
    · split at operator
      · cases operator
      · cases operator
        exact ⟨nofun, nofun, nofun⟩
  | call callee args ih =>
    rw [firstError] at h
    split at h
    next absent =>
      cases h
      refine ⟨nofun, nofun, ?_⟩
      rintro _ ⟨⟩
      exact absent
    · split at h
      · exact inBodyOf_listFirstError ih h
      · cases h
        exact ⟨nofun, nofun, nofun⟩

end Expr

theorem Definition.cause_of_check {d : Definition} {m : Module} {cause : LoweringError}
    (h : d.check m = some cause) : cause ≠ .noInsertionPoint ∧ cause ≠ .noTarget ∧
      cause ≠ .unknownFunction d.prototype.name := by
  unfold check at h
  split at h
  · cases h
    exact ⟨nofun, nofun, nofun⟩
  rcases Option.or_eq_some_iff.mp h with conflict | ⟨-, inBody⟩
  · unfold Prototype.conflict? at conflict
    split at conflict
    · cases conflict
    · split at conflict
      · cases conflict
        exact ⟨nofun, nofun, nofun⟩
      · split at conflict
        · cases conflict
        · cases conflict
          exact ⟨nofun, nofun, nofun⟩
  · have body := d.body.inBodyOf_firstError inBody
    refine ⟨body.insertionPoint, body.target, fun own => ?_⟩
    -- Within its own body a function is known.
    have absent := body.function _ own
    rw [Signatures.extend, if_pos rfl] at absent
    cases absent

/--
Lowering fails with the error that the check finds, and succeeds where it finds none. A
definition never fails for want of a target or of an open body, and a body that has been lowered
can be closed.
-/
theorem Ssa.Module.lowering_decided_by_check (m : Module) :
    (∀ d : Definition,
      (∀ cause, (∃ m', d.lower m = .error cause m') ↔ d.check m = some cause) ∧
      ((∃ m', d.lower m = .ok d.prototype.name m') ↔ d.check m = none)) ∧
    (∀ p : Prototype,
      (∀ cause, (∃ m', p.lower m = .error cause m') ↔ p.check m = some cause) ∧
      ((∃ m', p.lower m = .ok p.name m') ↔ p.check m = none)) ∧
    (∀ (d : Definition) (m' : Module) (cause : LoweringError), d.lower m = .error cause m' →
      cause ≠ .noInsertionPoint ∧ cause ≠ .noTarget ∧
        cause ≠ .unknownFunction d.prototype.name) ∧
    ∀ (d : Definition) (callable : String) (declared filled : Module) (result : Value),
      d.prototype.declareOrFind m = .ok callable declared →
      d.body.lower (LoweringTarget.beginBody declared callable d.prototype).state =
        .ok result filled →
      ∃ m', LoweringTarget.finishBody filled callable result = .ok () m' := by
  refine ⟨fun d => ?_, fun p => ?_, ?_, ?_⟩
  · have foretold := d.foretold_lower m
    exact ⟨foretold.error_iff, by simpa using foretold.ok_iff⟩
  · have foretold := p.foretold_lower m
    exact ⟨foretold.error_iff, by simpa using foretold.ok_iff⟩
  · intro d m' cause h
    have check : d.check m = some cause := ((d.foretold_lower m).error_iff cause).mp ⟨m', h⟩
    exact d.cause_of_check check
  · intro d callable declared filled result found lowered
    have prototype := d.prototype.foretold_declareOrFind m
    rw [found] at prototype
    obtain ⟨-, rfl, extended⟩ := prototype
    have body := d.body.foretold_lower _ (d.bodyOf_beginBody declared d.prototype.name)
    rw [lowered] at body
    have known : (declared.signatures d.prototype.name).isSome = true := by
      simp [extended, Signatures.extend]
    obtain ⟨_, m', closed, -⟩ := (filled.foretold_finishBody body.2 known result).ok_iff.mpr rfl
    exact ⟨m', closed⟩

/-- The outer call is one of the function itself; of the inner errors, the first one counts. -/
theorem Ssa.Module.lowering_decided_by_check_recursive :
    (∃ m', Definition.lower ⟨⟨"f", ["x"]⟩, .call "f"
        [.binary '/' (.call "g" [.reference "x"]) (.reference "y")]⟩
        (⟨"m", [⟨"g", ["a", "b"], none⟩], [], none⟩ : Module) =
      .error (.arityMismatch "g" 2 1) m') ∧
    LoweringError.arityMismatch "g" 2 1 ≠ .noInsertionPoint ∧
    ∃ filled m', Expr.lower (.call "f" [.reference "x"]) (LoweringTarget.beginBody
        (⟨"m", [⟨"f", ["a"], none⟩], [], none⟩ : Module) "f" ⟨"f", ["x"]⟩).state =
      .ok (.register "calltmp") filled ∧
      LoweringTarget.finishBody filled "f" (.register "calltmp") = .ok () m' := by
  have failed : ∃ m', Definition.lower ⟨⟨"f", ["x"]⟩, .call "f"
      [.binary '/' (.call "g" [.reference "x"]) (.reference "y")]⟩
      (⟨"m", [⟨"g", ["a", "b"], none⟩], [], none⟩ : Module) =
    .error (.arityMismatch "g" 2 1) m' :=
    (((lowering_decided_by_check _).1 _).1 _).mpr (by decide +kernel)
  obtain ⟨m', h⟩ := failed
  refine ⟨⟨m', h⟩, ((lowering_decided_by_check _).2.2.1 _ _ _ h).1, ?_⟩
  obtain ⟨filled, lowered⟩ : ∃ filled, Expr.lower (.call "f" [.reference "x"])
      (LoweringTarget.beginBody (⟨"m", [⟨"f", ["a"], none⟩], [], none⟩ : Module) "f"
        ⟨"f", ["x"]⟩).state = .ok (.register "calltmp") filled := ⟨_, rfl⟩
  have closed := (lowering_decided_by_check ⟨"m", [⟨"f", ["a"], none⟩], [], none⟩).2.2.2
    ⟨⟨"f", ["x"]⟩, .call "f" [.reference "x"]⟩ "f" _ filled _ rfl lowered
  exact ⟨filled, closed.imp fun m' closed => ⟨lowered, closed⟩⟩

end Formula
