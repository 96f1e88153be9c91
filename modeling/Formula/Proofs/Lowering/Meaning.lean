import Formula.Proofs.Lookup
import Formula.Proofs.Lowering.Generated
import Formula.Proofs.Ssa.Execution

/-! # Lowering preserves meaning

The code of an expression computes the value of the expression and makes its calls. Since
it assigns fresh registers only, whatever was computed before it stays in place.
-/

namespace Formula

open Ssa

variable {V : Type} {I : Interpretation V}

theorem Interpretation.operator?_arithmetic {op : Char} {operation : Arithmetic}
    (h : Operation.ofChar? op = some (.arithmetic operation)) (a b : V) :
    I.operator? op a b = some (operation.apply I a b) := by
  unfold Operation.ofChar? at h
  split at h <;> cases h <;> rfl

theorem Interpretation.operator?_less {op : Char} (h : Operation.ofChar? op = some .less)
    (a b : V) : I.operator? op a b = some (I.truth (I.less a b)) := by
  unfold Operation.ofChar? at h
  split at h <;> cases h
  rfl

namespace Ssa.Emission

variable {α α' β β' : Type} {r : Registers V}

/--
Where the registers are within the names taken, the code of the emission has the calls of a
computation, leaves what was assigned, and ends where the two results are related by `holds`.
-/
def Computes (I : Interpretation V) (f : Emission α) (r : Registers V) (t : Traced V β)
    (holds : Registers V → α → β → Prop) : Prop :=
  ∀ names value code last, f names = some (value, code, last) → r.Within names.used →
    ∃ x calls r', t = some (x, calls) ∧ execAll I code r = some (r', calls) ∧
      holds r' value x ∧ r.Le r' ∧ r'.Within last.used

theorem Computes.pure {holds : Registers V → α → β → Prop} {value : α} {x : β}
    (h : holds r value x) : (pure value).Computes I r (some (x, [])) holds := by
  rintro names _ _ _ ⟨⟩ hw
  exact ⟨x, [], r, rfl, rfl, h, .refl r, hw⟩

theorem Computes.register {base : String} {instruction : String → Instruction} {datum : Datum V}
    {calls : List (Call V)}
    (h : ∀ name, (instruction name).exec I r = some (r.assign name datum, calls)) (x : β) :
    (register base instruction).Computes I r (some (x, calls))
      fun r' name y => r' name = some datum ∧ y = x := by
  rintro names _ _ _ ⟨⟩ hw
  refine ⟨x, calls, r.assign (names.fresh base).1 datum, rfl, ?_, by simp,
    hw.le_assign (names.fresh_not_mem base) datum, ?_⟩
  · simp [execAll, h]
  · rw [NameSupply.used_fresh]
    exact hw.assign _ datum

theorem Computes.andThen {holds : Registers V → α → β → Prop}
    {holds' : Registers V → α' → β' → Prop} {first : Emission α} {next : α → Emission α'}
    {t : Traced V β} {t' : β → Traced V β'} (h : first.Computes I r t holds)
    (h' : ∀ value x r', r.Le r' → holds r' value x → (next value).Computes I r' (t' x) holds') :
    (first.andThen next).Computes I r (t.andThen t') holds' := by
  intro names result code last hc hw
  obtain ⟨value, before, middle, after, hf, hn, rfl⟩ := andThen_eq_some.mp hc
  obtain ⟨x, calls, r', ht, he, hx, le, hw'⟩ := h _ _ _ _ hf hw
  obtain ⟨y, more, r'', ht', he', hy, le', hw''⟩ := h' value x r' le hx _ _ _ _ hn hw'
  exact ⟨y, calls ++ more, r'', Traced.andThen_eq_some.mpr ⟨x, calls, more, ht, ht', rfl⟩,
    execAll_append he he', hy, le.trans le', hw''⟩

theorem Computes.map {holds : Registers V → α → β → Prop} {holds' : Registers V → α' → β → Prop}
    {first : Emission α} {f : α → α'} {t : Traced V β} (h : first.Computes I r t holds)
    (hf : ∀ r' value x, holds r' value x → holds' r' (f value) x) :
    (first.map f).Computes I r t holds' := by
  intro names result code last hc hw
  obtain ⟨value, hv, rfl⟩ := map_eq_some.mp hc
  obtain ⟨x, calls, r', ht, he, hx, le, hw'⟩ := h _ _ _ _ hv hw
  exact ⟨x, calls, r', ht, he, hf r' value x hx, le, hw'⟩

def Stands (I : Interpretation V) (r : Registers V) (value : Value) (x : V) : Prop :=
  r.number? I value = some x

theorem Computes.number {base : String} {instruction : String → Instruction} {x : V}
    {calls : List (Call V)}
    (h : ∀ name, (instruction name).exec I r = some (r.assign name (.number x), calls)) :
    ((Emission.register base instruction).map .register).Computes I r (some (x, calls))
      (Stands I) := by
  refine (Computes.register h x).map ?_
  rintro r' name _ ⟨hr, rfl⟩
  exact Registers.number?_register.mpr hr

theorem Computes.operation (op : Char) {lhs rhs : Value} {a b : V} (hl : Stands I r lhs a)
    (hr : Stands I r rhs b) :
    (operation op lhs rhs).Computes I r (.ofOption (I.operator? op a b)) (Stands I) := by
  unfold Stands at hl hr
  unfold Emission.operation
  split
  · nofun
  next op' hop =>
    rw [Interpretation.operator?_arithmetic hop]
    refine .number fun name => ?_
    simp [Instruction.exec, Traced.ofOption, hl, hr]
  next hop =>
    rw [Interpretation.operator?_less hop]
    -- The comparison alone makes no call, and its flag stays in place for the widening.
    have compared : (Emission.register "cmptmp" (.compare · lhs rhs)).Computes I r (some ((), []))
        fun r' flag done => r' flag = some (.truth (I.less a b)) ∧ done = () :=
      .register (fun name => by simp [Instruction.exec, Traced.ofOption, hl, hr]) ()
    change Computes I _ r (Traced.andThen (some ((), [])) fun _ =>
      some (I.truth (I.less a b), [])) (Stands I)
    refine compared.andThen fun flag _ r' _ hf => .number fun name => ?_
    simp [Instruction.exec, Traced.ofOption, Registers.truth?, hf.1]

theorem Computes.call (callee : String) {args : List Value} {values : List V}
    (h : args.mapM (r.number? I) = some values) :
    ((Emission.register "calltmp" (.call · callee args)).map .register).Computes I r
      (some (I.call callee values, [⟨callee, values⟩])) (Stands I) := by
  refine .number fun name => ?_
  simp [Instruction.exec, h]

end Ssa.Emission

namespace Expr

variable {scope : List (String × Value)} {env : String → Option V} {r : Registers V}

def Bound (I : Interpretation V) (scope : List (String × Value)) (env : String → Option V)
    (r : Registers V) : Prop :=
  ∀ name value, scope.lookup name = some value →
    ∃ x, env name = some x ∧ Emission.Stands I r value x

theorem Bound.mono {r' : Registers V} (h : Bound I scope env r) (le : r.Le r') :
    Bound I scope env r' := fun name value hv =>
  let ⟨x, hx, hs⟩ := h name value hv
  ⟨x, hx, le.number? hs⟩

theorem emitAll_computes {args : List Expr}
    (ih : ∀ arg ∈ args, ∀ {r}, Bound I scope env r →
      (arg.emit scope).Computes I r (arg.eval I env) (Emission.Stands I))
    (hb : Bound I scope env r) :
    (emitAll scope args).Computes I r (evalAll I env args)
      fun r' values xs => values.mapM (r'.number? I) = some xs := by
  induction args generalizing r with
  | nil => exact .pure rfl
  | cons arg rest ih' =>
    refine (ih arg (by simp) hb).andThen fun value x r' le hx => ?_
    have others := ih' (fun a ha => ih a (by simp [ha])) (hb.mono le)
    refine others.andThen fun values xs r'' le' hxs => .pure ?_
    -- The later arguments have left the register of the first one in place.
    have first := le'.number? hx
    simp [first, hxs]

theorem emit_computes (e : Expr) (hb : Bound I scope env r) :
    (e.emit scope).Computes I r (e.eval I env) (Emission.Stands I) := by
  induction e generalizing r with
  | number x => exact .pure rfl
  | reference name =>
    intro names value code last h hw
    obtain ⟨_, hv, ⟨⟩⟩ := Option.map_eq_some_iff.mp h
    obtain ⟨x, hx, hs⟩ := hb name value hv
    exact ⟨x, [], r, by simp [eval, Traced.ofOption, hx], rfl, hs, .refl r, hw⟩
  | binary op lhs rhs ihl ihr =>
    refine (ihl hb).andThen fun a x r' le hx => ?_
    refine (ihr (hb.mono le)).andThen fun b y r'' le' hy => ?_
    exact .operation op (le'.number? hx) hy
  | call callee args ih =>
    exact (emitAll_computes ih hb).andThen fun values xs r' _ hxs => .call callee hxs

end Expr

/-- When the body is entered, an argument name stands for the value of its last occurrence. -/
theorem Prototype.bound_ofArguments (p : Prototype) {values : List V}
    (h : values.length = p.arity) :
    Expr.Bound I p.scope (lastOf p.args values) (.ofArguments p.slots.1 values) := by
  have length : p.slots.1.length = values.length := by
    rw [h]
    exact NameSupply.length_freshAll .empty p.args
  have distinct : p.slots.1.Nodup := by
    simpa [p.used_slots] using p.nodup_used_slots
  -- Parameters and values are the two sides of one list of pairs.
  intro name value hv
  have slots : p.slots.1 = (p.slots.1.zip values).map (·.1) := by
    simp [List.map_fst_zip, length]
  have args : values = (p.slots.1.zip values).map (·.2) := by
    simp [List.map_snd_zip, length]
  rw [scope, lookup_reverse_zip, lastOf_map] at hv
  obtain ⟨slot, hl, rfl⟩ := Option.map_eq_some_iff.mp hv
  rw [slots, lastOf_map] at hl
  obtain ⟨pair, hp, rfl⟩ := Option.map_eq_some_iff.mp hl
  refine ⟨pair.2, ?_, Registers.number?_register.mpr ?_⟩
  · rw [args, lastOf_map, hp]
    rfl
  · rw [Registers.ofArguments, lookup_of_mem (slots ▸ distinct) (mem_of_lastOf hp)]
    rfl

theorem Prototype.within_ofArguments (p : Prototype) (values : List V) :
    (Registers.ofArguments p.slots.1 values).Within p.slots.2.used := by
  intro name datum h
  obtain ⟨x, hx, -⟩ := Option.map_eq_some_iff.mp h
  obtain ⟨before, after, hs, -⟩ := List.lookup_eq_some_iff.mp hx
  have mem : (name, x) ∈ p.slots.1.zip values := by simp [hs]
  simpa [p.used_slots] using (List.of_mem_zip mem).1

/--
A lowered body is executed to the value of the expression and with its calls, for all meanings
of numbers, operators and functions.
-/
theorem Definition.lower_preserves_meaning {d : Definition} {m m' : Module} {callable : String}
    (h : d.lower m = .ok callable m') :
    callable = d.prototype.name ∧ ∃ params body,
      m'.function? callable = some ⟨callable, params, some body⟩ ∧
      m'.render callable = (Function.mk callable params (some body)).toText ∧
      (d.Spelled → ∀ f : Function, f.Spelled →
        (f.toText = m'.render callable ↔ f = ⟨callable, params, some body⟩)) ∧
      params.length = d.prototype.arity ∧
      ∀ {V : Type} (I : Interpretation V) (values : List V), values.length = d.prototype.arity →
        ∃ result calls,
          d.body.eval I (lastOf d.prototype.args values) = some (result, calls) ∧
          run I body (.ofArguments params values) = some (result, calls) := by
  obtain ⟨rfl, value, code, names, he, hf⟩ := function?_of_lower h
  refine ⟨rfl, d.prototype.slots.1, code ++ [.ret value], hf, by simp [Module.render, hf],
    fun hd f => toText_eq_render_iff h hd hf, NameSupply.length_freshAll .empty _,
    fun I values count => ?_⟩
  obtain ⟨x, calls, r', hx, hc, hv, -, -⟩ := d.body.emit_computes (I := I)
    (d.prototype.bound_ofArguments count) _ _ _ _ he (d.prototype.within_ofArguments values)
  exact ⟨x, calls, hx, run_append_ret hc hv⟩

def Interpretation.integers : Interpretation Int where
  number x := if x = .zero then 0 else 1
  add := (· + ·)
  sub := (· - ·)
  mul := (· * ·)
  less := fun a b => decide (a < b)
  call _ args := args.foldl (· + ·) 0

theorem Definition.lower_preserves_meaning_recursive :
    let d : Definition := ⟨⟨"g", ["x", "x1", "x"]⟩, .binary '<' (.reference "x") (.call "g"
      [.reference "x", .reference "x1", .binary '*' (.reference "x") (.reference "x")])⟩
    let body : List Instruction :=
      [.arithmetic .mul "multmp" (.register "x2") (.register "x2"),
        .call "calltmp" "g" [.register "x2", .register "x1", .register "multmp"],
        .compare "cmptmp" (.register "x2") (.register "calltmp"), .widen "booltmp" "cmptmp",
        .ret (.register "booltmp")]
    let m' : Module := ⟨"m", [⟨"g", ["x", "x1", "x2"], some body⟩], [], none⟩
    let text := "define double @g(double %x, double %x1, double %x2) \x7b\nentry:\n" ++
      "  %multmp = fmul double %x2, %x2\n" ++
      "  %calltmp = call double @g(double %x2, double %x1, double %multmp)\n" ++
      "  %cmptmp = fcmp ult double %x2, %calltmp\n" ++
      "  %booltmp = uitofp i1 %cmptmp to double\n  ret double %booltmp\n\x7d\n"
    d.lower (.empty "m") = .ok "g" m' ∧ d.Spelled ∧
      (∀ f : Function, f.Spelled →
        (f.toText = text ↔ f = ⟨"g", ["x", "x1", "x2"], some body⟩)) ∧
      d.body.eval .integers (lastOf ["x", "x1", "x"] [2, 3, 5]) = some (1, [⟨"g", [5, 3, 25]⟩]) ∧
      run .integers body (.ofArguments ["x", "x1", "x2"] [2, 3, 5]) =
        some (1, [⟨"g", [5, 3, 25]⟩]) := by
  intro d body m' text
  have h : d.lower (.empty "m") = .ok "g" m' := by decide +kernel
  have spelled : d.Spelled := ⟨by decide +kernel, by decide +kernel, by decide +kernel⟩
  have rendered : m'.render "g" = text := by decide +kernel
  obtain ⟨-, _, _, stored, -, pinned, -, meaning⟩ := Definition.lower_preserves_meaning h
  cases stored
  rw [rendered] at pinned
  obtain ⟨result, calls, evaluated, executed⟩ := meaning .integers [2, 3, 5] rfl
  have value : d.body.eval .integers (lastOf ["x", "x1", "x"] [2, 3, 5]) =
      some (1, [⟨"g", [5, 3, 25]⟩]) := rfl
  obtain ⟨rfl, rfl⟩ := Prod.mk.inj (Option.some.inj (evaluated.symm.trans value))
  exact ⟨h, spelled, pinned spelled, value, executed⟩

end Formula
