import Formula.Proofs.Lowering.Atomicity

/-! # Closed modules

In a closed module every call names a function of the module and has as many arguments as
that function has parameters. Declarations, definitions and expressions that stand alone
keep a module closed: a definition may replace the parameters of a function that is called
already, but not their number.
-/

namespace Formula

open Ssa LoweringTarget

namespace Ssa

def Instruction.call? : Instruction → Option (String × Nat)
  | call _ callee args => some (callee, args.length)
  | _ => none

def Function.calls (f : Function) : List (String × Nat) :=
  (f.body.getD []).filterMap Instruction.call?

def Emission.Makes {α : Type} (f : Emission α) (calls : List (String × Nat)) : Prop :=
  ∀ names value code last, f names = some (value, code, last) →
    code.filterMap Instruction.call? = calls

namespace Emission

variable {α β : Type} {calls more : List (String × Nat)}

theorem Makes.pure (value : α) : (pure value).Makes [] := by
  rintro names _ _ _ ⟨⟩
  rfl

theorem Makes.register (base : String) {instruction : String → Instruction}
    (h : ∀ r, [instruction r].filterMap Instruction.call? = calls) :
    (register base instruction).Makes calls := by
  rintro names _ _ _ ⟨⟩
  exact h _

theorem Makes.andThen {first : Emission α} {next : α → Emission β} (h : first.Makes calls)
    (h' : ∀ value, (next value).Makes more) : (first.andThen next).Makes (calls ++ more) := by
  intro names result code last hc
  obtain ⟨value, before, middle, after, hf, hn, rfl⟩ := andThen_eq_some.mp hc
  rw [List.filterMap_append, h _ _ _ _ hf, h' _ _ _ _ _ hn]

theorem Makes.map {first : Emission α} (h : first.Makes calls) (f : α → β) :
    (first.map f).Makes calls := by
  have made := h.andThen fun value => Makes.pure (f value)
  rwa [List.append_nil] at made

theorem Makes.operation (op : Char) (lhs rhs : Value) : (operation op lhs rhs).Makes [] := by
  unfold Emission.operation
  split
  · nofun
  · exact .map (.register _ fun _ => by rfl) _
  · have compared : (Emission.register "cmptmp" (.compare · lhs rhs)).Makes [] :=
      .register _ fun _ => by rfl
    exact compared.andThen fun flag => .map (.register _ fun _ => by rfl) _

end Emission

end Ssa

namespace Expr

variable {scope : List (String × Value)}

theorem length_of_emitAll {args : List Expr} {names last : NameSupply} {values : List Value}
    {code : List Instruction} (h : emitAll scope args names = some (values, code, last)) :
    values.length = args.length := by
  induction args generalizing names values code last with
  | nil =>
    cases h
    rfl
  | cons arg rest ih =>
    obtain ⟨value, before, middle, after, -, hr, rfl⟩ := Emission.andThen_eq_some.mp h
    obtain ⟨more, hm, rfl⟩ := Emission.map_eq_some.mp hr
    simp [ih hm]

theorem emitAll_makes {args : List Expr} (ih : ∀ arg ∈ args, (arg.emit scope).Makes arg.calls) :
    (emitAll scope args).Makes (listCalls args) := by
  induction args with
  | nil => exact .pure []
  | cons arg rest ih' =>
    exact (ih arg (by simp)).andThen fun value => (ih' fun a ha => ih a (by simp [ha])).map _

theorem emit_makes (e : Expr) : (e.emit scope).Makes e.calls := by
  induction e with
  | number value => exact .pure _
  | reference name =>
    intro names value code last h
    obtain ⟨_, _, ⟨⟩⟩ := Option.map_eq_some_iff.mp h
    rfl
  | binary op lhs rhs ihl ihr =>
    have made := ihl.andThen fun a => ihr.andThen fun b => .operation op a b
    rwa [List.append_nil] at made
  | call callee args ih =>
    intro names value code last h
    obtain ⟨values, before, middle, after, ha, hc, rfl⟩ := Emission.andThen_eq_some.mp h
    have made : (Emission.register "calltmp" (.call · callee values)).Makes
        [(callee, args.length)] := .register _ fun r => by
      simp [Instruction.call?, length_of_emitAll ha]
    rw [List.filterMap_append, emitAll_makes ih _ _ _ _ ha, made.map _ _ _ _ _ hc, calls]

end Expr

namespace Ssa.Module

variable {m m' : Module} {name : String} {params : List String} {body : List Instruction}

/-- Nothing is under construction, names are distinct, and all calls have their function. -/
structure Closed (m : Module) : Prop where
  idle : m.Idle
  distinct : (m.functions.map (·.name)).Nodup
  resolved : ∀ f ∈ m.functions, m.Resolves f.calls
  unreserved : ∀ f ∈ m.functions, f.name ≠ Prototype.anonymousName

theorem closed_empty (name : String) : (empty name).Closed :=
  ⟨⟨rfl, rfl⟩, .nil, nofun, nofun⟩

def Retains (m m' : Module) : Prop :=
  ∀ name f, m.function? name = some f →
    ∃ g, m'.function? name = some g ∧ g.params.length = f.params.length

theorem Resolves.retained {calls : List (String × Nat)} (h : m.Resolves calls)
    (hr : m.Retains m') : m'.Resolves calls := by
  intro call hc
  obtain ⟨f, hf, count⟩ := h call hc
  obtain ⟨g, hg, same⟩ := hr _ f hf
  exact ⟨g, hg, same.trans count⟩

theorem map_name_define (functions : List Function) :
    (define name params body functions).map (·.name) = functions.map (·.name) := by
  induction functions with
  | nil => rfl
  | cons f rest ih =>
    unfold define
    split
    · rfl
    · rw [List.map_cons, ih, List.map_cons]

theorem mem_define {functions : List Function} {g : Function}
    (h : g ∈ define name params body functions) :
    g ∈ functions ∨ g = ⟨name, params, some body⟩ := by
  induction functions with
  | nil => exact .inl h
  | cons f rest ih =>
    unfold define at h
    split at h
    next same =>
      subst same
      rcases List.mem_cons.mp h with rfl | h
      · exact .inr rfl
      · exact .inl (List.mem_cons_of_mem _ h)
    · rcases List.mem_cons.mp h with rfl | h
      · exact .inl List.mem_cons_self
      · exact (ih h).imp_left (List.mem_cons_of_mem _)

theorem find?_define_of_ne {other : String} (h : other ≠ name) (functions : List Function) :
    (define name params body functions).find? (·.name == other) =
      functions.find? (·.name == other) := by
  induction functions with
  | nil => rfl
  | cons f rest ih =>
    unfold define
    split
    next same => simp [same, h.symm]
    · simp only [List.find?_cons, ih]

theorem filter_define (functions : List Function) :
    (define name params body functions).filter (·.name ≠ name) =
      functions.filter (·.name ≠ name) := by
  induction functions with
  | nil => rfl
  | cons f rest ih =>
    unfold define
    split
    next same => simp [same]
    · simp only [List.filter_cons, ih]

theorem retains_declare (m : Module) (f : Function) :
    m.Retains { m with functions := m.functions ++ [f] } := by
  intro name g hg
  refine ⟨g, ?_, rfl⟩
  unfold function? at hg ⊢
  simp [hg]

theorem retains_define {f : Function} (h : m.function? name = some f)
    (hp : params.length = f.params.length) (body : List Instruction) :
    m.Retains { m with functions := define name params body m.functions } := by
  intro other g hg
  by_cases same : other = name
  · subst same
    obtain rfl := Option.some.inj (h.symm.trans hg)
    exact ⟨_, find?_define h params body, hp⟩
  · exact ⟨g, (find?_define_of_ne same _).trans hg, rfl⟩

theorem Closed.declare {f : Function} (h : m.Closed) (new : m.function? f.name = none)
    (bodiless : f.body = none) (hn : f.name ≠ Prototype.anonymousName) :
    Closed { m with functions := m.functions ++ [f] } where
  idle := ⟨h.idle.builder, h.idle.scope⟩
  distinct := by
    have absent : ∀ g ∈ m.functions, g.name ≠ f.name := by
      simpa [function?] using new
    rw [List.map_append, List.nodup_append]
    refine ⟨h.distinct, by simp, ?_⟩
    simpa using absent
  resolved := by
    intro g hg
    rcases List.mem_append.mp hg with hg | hg
    · exact (h.resolved g hg).retained (m.retains_declare f)
    · obtain rfl := List.mem_singleton.mp hg
      simp [Resolves, Function.calls, bodiless]
  unreserved := by
    intro g hg
    rcases List.mem_append.mp hg with hg | hg
    · exact h.unreserved g hg
    · obtain rfl := List.mem_singleton.mp hg
      exact hn

/-- A body whose calls have their function can be given to a function in place of another one. -/
theorem Closed.define {f : Function} (h : m.Closed) (hf : m.function? name = some f)
    (hp : params.length = f.params.length)
    (hc : m.Resolves (body.filterMap Instruction.call?)) :
    Closed { m with functions := define name params body m.functions } where
  idle := ⟨h.idle.builder, h.idle.scope⟩
  distinct := by
    rw [map_name_define]
    exact h.distinct
  resolved := by
    intro g hg
    -- Callers were lowered against the old parameters; the new ones are as many.
    have retained := retains_define hf hp body
    rcases mem_define hg with hg | rfl
    · exact (h.resolved g hg).retained retained
    · exact hc.retained retained
  unreserved := by
    intro g hg
    rcases mem_define hg with hg | rfl
    · exact h.unreserved g hg
    · have found := h.unreserved f (List.mem_of_find?_eq_some hf)
      rwa [name_of_function? hf] at found

end Ssa.Module

namespace Prototype

variable {p : Prototype} {m m' : Module} {callable : String}

theorem closed_declareOrFind (h : p.declareOrFind m = .ok callable m') (hm : m.Closed)
    (hn : p.name ≠ anonymousName) : m'.Closed := by
  obtain ⟨-, ⟨_, _, _, _, rfl⟩ | ⟨new, rfl⟩⟩ := declareOrFind_eq_ok h
  · exact hm
  · exact hm.declare new rfl hn

theorem closed_lower (p : Prototype) (hm : m.Closed) : (p.lower m).state.Closed := by
  cases h : p.lower m with
  | ok callable m' =>
    unfold lower at h
    split at h
    · cases h
    next spellable =>
      exact closed_declareOrFind h hm (by simpa [isAnonymous] using spellable)
  | error cause m' =>
    obtain rfl := p.lower_eq_error h
    exact hm

end Prototype

namespace Definition

variable {d : Definition} {m m' : Module} {callable : String}

theorem closed_lower (hm : m.Closed) (hn : d.prototype.name ≠ Prototype.anonymousName) :
    (d.lower m).state.Closed := by
  cases h : d.lower m with
  | ok callable m' =>
    obtain ⟨rfl, declared, value, code, names, hd, he, resolved, rfl⟩ := lower_eq_ok h
    obtain ⟨f, hf, -, count⟩ := Prototype.exists_function_of_declareOrFind hd
    have closed := Prototype.closed_declareOrFind hd hm hn
    rw [closed.idle.abandonBody_eq]
    refine closed.define hf ?_ ?_
    · rw [count]
      exact NameSupply.length_freshAll .empty _
    · have returns : [Instruction.ret value].filterMap Instruction.call? = [] := rfl
      rwa [List.filterMap_append, d.body.emit_makes _ _ _ _ he, returns, List.append_nil]
  | error cause m' =>
    obtain rfl := d.lower_eq_error_of_idle h hm.idle
    exact hm

theorem absent_of_lower_anonymous {e : Expr} (h : (anonymous e).lower m = .ok callable m') :
    m.function? Prototype.anonymousName = none := by
  simp only [lower] at h
  split at h
  · cases h
  next absent =>
    have unnamed : (find? m Prototype.anonymousName).isSome = false := by
      simpa [anonymous, Prototype.anonymous, Prototype.isAnonymous] using absent
    simpa [LoweringTarget.find?] using unnamed

/-- An expression that stands alone leaves nothing when its function is removed again. -/
theorem erase_lower_anonymous {e : Expr} (h : (anonymous e).lower m = .ok callable m') :
    m'.erase callable = m.abandonBody := by
  have absent := absent_of_lower_anonymous h
  obtain ⟨rfl, declared, value, code, names, hd, -, -, rfl⟩ := lower_eq_ok h
  obtain ⟨-, ⟨f, hf, -⟩ | ⟨new, rfl⟩⟩ := Prototype.declareOrFind_eq_ok hd
  · cases absent.symm.trans hf
  · rw [Module.erase, Module.filter_define, Module.filter_declare new _ rfl]
    rfl

end Definition

end Formula
