import Formula.Proofs.Lowering.Freshness

/-! # The names of a body

Parameters are named for the arguments, and results for the operations that they come from.
The label of the body is not a name of the supply: no result is named like it, but a parameter
is whenever an argument is.
-/

namespace Formula

open Ssa

namespace Ssa

def registerBases : List String := ["addtmp", "subtmp", "multmp", "cmptmp", "booltmp", "calltmp"]

def Generated (register : String) : Prop := ∃ base ∈ registerBases, NameSupply.NameOf base register

def entryLabel : String := "entry"

theorem not_generated_entryLabel : ¬ Generated entryLabel := by
  rintro ⟨base, mem, named⟩
  obtain rfl := named.eq_base (c := 'y') (by decide) (by decide)
  exact absurd mem (by decide)

theorem Arithmetic.registerBase_mem (op : Arithmetic) : op.registerBase ∈ registerBases := by
  cases op <;> decide

theorem Function.toText_of_body (name : String) (params : List String) (body : List Instruction) :
    (Function.mk name params (some body)).toText =
      "define " ++ (Function.mk name params (some body)).signature ++ " \x7b\n" ++ entryLabel ++
        ":\n" ++ String.join (body.map fun i => "  " ++ i.toText ++ "\n") ++ "\x7d\n" := by
  have opening : " \x7b\nentry:\n" = " \x7b\n" ++ entryLabel ++ ":\n" := by decide
  simp only [Function.toText, opening, String.append_assoc]

namespace Emission

variable {α β : Type}

def Generates (f : Emission α) : Prop :=
  ∀ names value code last, f names = some (value, code, last) → ∀ r ∈ results code, Generated r

theorem Generates.pure (value : α) : (pure value).Generates := by
  rintro names _ _ _ ⟨⟩
  exact fun _ mem => nomatch mem

theorem Generates.register {base : String} (hb : base ∈ registerBases)
    {instruction : String → Instruction} (h : ∀ r, (instruction r).result? = some r) :
    (register base instruction).Generates := by
  rintro names _ _ _ ⟨⟩ r mem
  obtain rfl : r = (names.fresh base).1 := by simpa [results, h] using mem
  exact ⟨base, hb, names.nameOf_fresh base⟩

theorem Generates.andThen {first : Emission α} {next : α → Emission β} (h : first.Generates)
    (h' : ∀ value, (next value).Generates) : (first.andThen next).Generates := by
  intro names result code last hc r mem
  obtain ⟨value, before, middle, after, hf, hn, rfl⟩ := andThen_eq_some.mp hc
  rw [results_append, List.mem_append] at mem
  rcases mem with earlier | later
  · exact h _ _ _ _ hf r earlier
  · exact h' _ _ _ _ _ hn r later

theorem Generates.map {first : Emission α} (h : first.Generates) (f : α → β) :
    (first.map f).Generates := h.andThen fun value => .pure (f value)

theorem Generates.operation (op : Char) (lhs rhs : Value) : (operation op lhs rhs).Generates := by
  unfold Emission.operation
  split
  · nofun
  next op _ => exact (Generates.register op.registerBase_mem fun _ => rfl).map _
  · have compared : (Emission.register "cmptmp" (.compare · lhs rhs)).Generates :=
      .register (by decide) fun _ => rfl
    exact compared.andThen fun flag => (Generates.register (by decide) fun _ => rfl).map _

end Emission

end Ssa

namespace Expr

variable {scope : List (String × Value)}

theorem emitAll_generates {args : List Expr} (ih : ∀ arg ∈ args, (arg.emit scope).Generates) :
    (emitAll scope args).Generates := by
  induction args with
  | nil => exact .pure []
  | cons arg rest ih' =>
    exact (ih arg (by simp)).andThen fun value => (ih' fun a ha => ih a (by simp [ha])).map _

theorem emit_generates (e : Expr) : (e.emit scope).Generates := by
  induction e with
  | number value => exact .pure _
  | reference name =>
    intro names value code last h
    obtain ⟨_, _, ⟨⟩⟩ := Option.map_eq_some_iff.mp h
    exact fun _ mem => nomatch mem
  | binary op lhs rhs ihl ihr =>
    exact ihl.andThen fun a => ihr.andThen fun b => .operation op a b
  | call callee args ih =>
    refine (emitAll_generates ih).andThen fun values => ?_
    exact (Emission.Generates.register (by decide) fun _ => rfl).map _

end Expr

namespace Prototype

theorem exists_nameOf_of_mem_slots {p : Prototype} {slot : String} (h : slot ∈ p.slots.1) :
    ∃ arg ∈ p.args, NameSupply.NameOf arg slot := NameSupply.exists_nameOf_of_mem_freshAll h

theorem mem_slots {p : Prototype} {arg : String} (h : arg ∈ p.args) : arg ∈ p.slots.1 := by
  have used : arg ∈ p.slots.2.used := NameSupply.mem_used_freshAll h
  rwa [p.used_slots, List.mem_reverse] at used

theorem entryLabel_mem_slots_iff {p : Prototype} :
    entryLabel ∈ p.slots.1 ↔ entryLabel ∈ p.args := by
  constructor
  · intro mem
    obtain ⟨arg, among, named⟩ := exists_nameOf_of_mem_slots mem
    rwa [named.eq_base (c := 'y') (by decide) (by decide)]
  · exact mem_slots

end Prototype

namespace Definition

variable {d : Definition} {m m' : Module} {callable : String}

/-- A name in a lowered definition is that of its label only where an argument is spelled so. -/
theorem entryLabel_mem_iff (h : d.lower m = .ok callable m') :
    ∃ params body, m'.function? callable = some ⟨callable, params, some body⟩ ∧
      m'.render callable =
        "define " ++ (Function.mk callable params (some body)).signature ++ " \x7b\n" ++
          entryLabel ++ ":\n" ++ String.join (body.map fun i => "  " ++ i.toText ++ "\n") ++
          "\x7d\n" ∧
      (entryLabel ∈ params ++ results body ↔ entryLabel ∈ d.prototype.args) ∧
      entryLabel ∉ results body := by
  obtain ⟨rfl, value, code, names, emitted, stored⟩ := function?_of_lower h
  have unassigned : entryLabel ∉ results (code ++ [.ret value]) := by
    intro mem
    rw [results_append, results_ret, results_nil, List.append_nil] at mem
    exact not_generated_entryLabel (d.body.emit_generates _ _ _ _ emitted _ mem)
  refine ⟨_, _, stored, ?_, ?_, unassigned⟩
  · rw [Module.render, stored, Option.map_some, Option.getD_some, Function.toText_of_body]
  · rw [List.mem_append, or_iff_left unassigned]
    exact Prototype.entryLabel_mem_slots_iff

theorem entryLabel_mem_iff_suffixed :
    ∃ m' params body, Definition.lower
        ⟨⟨"f", ["x", "entry1"]⟩, .binary '+' (.reference "x") (.number .zero)⟩
        (Module.empty "m") = .ok "f" m' ∧
      m'.function? "f" = some ⟨"f", params, some body⟩ ∧
      entryLabel ∉ params ++ results body := by
  obtain ⟨m', h⟩ : ∃ m', Definition.lower
      ⟨⟨"f", ["x", "entry1"]⟩, .binary '+' (.reference "x") (.number .zero)⟩
      (Module.empty "m") = .ok "f" m' := ⟨_, rfl⟩
  obtain ⟨params, body, stored, -, clash, -⟩ := entryLabel_mem_iff h
  exact ⟨m', params, body, h, stored, fun mem => absurd (clash.mp mem) (by decide)⟩

/-- A parameter that is named like the label. -/
theorem entryLabel_mem_of_argument :
    ∃ m', Definition.lower ⟨⟨"f", ["entry"]⟩, .reference "entry"⟩ (Module.empty "m") =
        .ok "f" m' ∧
      m'.function? "f" = some ⟨"f", ["entry"], some [.ret (.register "entry")]⟩ ∧
      m'.render "f" =
        "define double @f(double %entry) \x7b\nentry:\n  ret double %entry\n\x7d\n" ∧
      entryLabel ∈ ["entry"] ++ results [.ret (.register "entry")] :=
  ⟨_, rfl, rfl, by decide +kernel, by decide⟩

end Definition

end Formula
