import Formula.Proofs.Expr.Evaluation
import Formula.Proofs.Lowering.RegisterNames
import Mathlib.Logic.Relation

/-! # Parameters of declarations and of bodies

A declaration and an opened body get the same parameters: one for each argument, distinct, and
with the name of the argument unless an earlier parameter has taken it. In the body each argument
name stands for the parameter of its last occurrence. Nothing that is done while the body is open
changes the parameters, so the function has them when the body is closed, and its signature reads
as it did when it was declared with the same arguments.
-/

namespace Formula

open Ssa

section LastOf

variable {α : Type} {names : List String} {xs : List α} {name : String}

theorem lastOf_eq_none (h : name ∉ names) : lastOf names xs name = none := by
  induction names generalizing xs with
  | nil => rfl
  | cons n names ih =>
    have ne : n ≠ name := (List.ne_of_not_mem_cons h).symm
    cases xs with
    | nil => rfl
    | cons x xs => rw [lastOf, ih (List.not_mem_of_not_mem_cons h), Option.none_or, if_neg ne]

theorem lastOf_of_getElem? {i : Nat} {x : α} (at_name : names[i]? = some name)
    (at_x : xs[i]? = some x) (last : ∀ j, i < j → names[j]? ≠ some name) :
    lastOf names xs name = some x := by
  induction names generalizing xs i with
  | nil => cases at_name
  | cons n names ih =>
    cases xs with
    | nil => cases at_x
    | cons y xs =>
      cases i with
      | zero =>
        obtain rfl := Option.some.inj at_name
        obtain rfl := Option.some.inj at_x
        have behind : n ∉ names := fun mem => by
          obtain ⟨j, found⟩ := List.mem_iff_getElem?.mp mem
          exact last (j + 1) (Nat.succ_pos j) found
        rw [lastOf, lastOf_eq_none behind, Option.none_or, if_pos rfl]
      | succ i =>
        rw [lastOf, ih at_name at_x fun j lt => last (j + 1) (Nat.succ_lt_succ lt), Option.some_or]

end LastOf

namespace Ssa

namespace NameSupply

theorem take_freshAll (supply : NameSupply) (bases : List String) (i : Nat) :
    (supply.freshAll bases).1.take i = (supply.freshAll (bases.take i)).1 := by
  induction bases generalizing supply i with
  | nil => rw [List.take_nil, freshAll, List.take_nil]
  | cons base rest ih =>
    cases i with
    | zero => rfl
    | succ i => rw [freshAll_cons, List.take_succ_cons, ih, List.take_succ_cons, freshAll_cons]

theorem getElem?_freshAll (supply : NameSupply) {bases : List String} {base : String} {i : Nat}
    (h : bases[i]? = some base) :
    (supply.freshAll bases).1[i]? =
      some ((supply.freshAll (bases.take i)).2.fresh base).1 := by
  induction bases generalizing supply i with
  | nil => cases h
  | cons first rest ih =>
    cases i with
    | zero =>
      obtain rfl := Option.some.inj h
      rfl
    | succ i => exact ih (supply.fresh first).2 h

end NameSupply

/-- One parameter for each argument, with the name of the argument unless it is taken. -/
structure Allotted (args params : List String) : Prop where
  length_eq : params.length = args.length
  nodup : params.Nodup
  named (i : Nat) (arg param : String) : args[i]? = some arg → params[i]? = some param →
    arg ∉ params.take i → param = arg

namespace Module

variable {m m' : Module} {callable : String}

/-- The arguments have the values of their last parameters, and no other name has a value. -/
structure Binds (m : Module) (args params : List String) : Prop where
  last (i : Nat) (arg : String) : args[i]? = some arg → (∀ j, i < j → args[j]? ≠ some arg) →
    ∃ param, params[i]? = some param ∧ m.argument arg = .ok (.register param) m
  other (name : String) : name ∉ args → m.argument name = .error (.unknownVariable name) m

/-- What can change a module while a body stays open. -/
inductive BodyStep : Module → Module → Prop where
  | binary (m : Module) (op : Char) (lhs rhs : Value) : BodyStep m (m.binary op lhs rhs).state
  | call (m : Module) (callee : String) (args : List Value) : BodyStep m (m.call callee args).state
  | declare (m : Module) (p : Prototype) : BodyStep m (m.declare p).state
  | erase (m : Module) (name : String) : BodyStep m (m.erase name)

def openParams (m : Module) : Option (List String) := m.builder.map (·.params)

theorem openParams_emit (m : Module) (base : String) (instruction : String → Instruction) :
    (m.emit base instruction).state.openParams = m.openParams := by
  unfold emit
  split
  · rfl
  next opened => simp [openParams, opened]

theorem openParams_binary (m : Module) (op : Char) (lhs rhs : Value) :
    (m.binary op lhs rhs).state.openParams = m.openParams := by
  unfold binary
  split
  · rfl
  · split
    · rfl
    · rw [Outcome.state_map, openParams_emit]
    · rw [Outcome.state_andThen_congr openParams]
      · exact openParams_emit m _ _
      · intro flag m
        rw [Outcome.state_map, openParams_emit]

theorem BodyStep.openParams_eq (h : BodyStep m m') : m'.openParams = m.openParams := by
  cases h with
  | binary op lhs rhs => exact openParams_binary m op lhs rhs
  | call callee args =>
    rw [Module.call, Outcome.state_map]
    exact openParams_emit m _ _
  | declare p => rfl
  | erase name => rfl

theorem openParams_of_steps (h : Relation.ReflTransGen BodyStep m m') :
    m'.openParams = m.openParams := by
  induction h with
  | refl => rfl
  | tail _ step ih => exact step.openParams_eq.trans ih

theorem finishBody_of_openParams {params : List String} {f : Function}
    (opened : m.openParams = some params) (found : m.function? callable = some f)
    (result : Value) :
    ∃ body closed, m.finishBody callable result = .ok () closed ∧
      closed.function? callable = some ⟨f.name, params, some body⟩ := by
  obtain ⟨b, hb, rfl⟩ := Option.map_eq_some_iff.mp opened
  refine ⟨b.instructions ++ [.ret result], { m.abandonBody with
    functions := define callable b.params (b.instructions ++ [.ret result]) m.functions }, ?_, ?_⟩
  · simp [finishBody, hb, found]
  · exact find?_define found b.params _

theorem render_declared {name : String} {params : List String}
    (found : m.function? name = some ⟨name, params, none⟩) :
    m.render name = "declare " ++ (Function.mk name params none).signature ++ "\n" := by
  rw [render, found]
  rfl

theorem render_defined {name : String} {params : List String} {body : List Instruction}
    (found : m.function? name = some ⟨name, params, some body⟩) :
    m.render name = "define " ++ (Function.mk name params none).signature ++
      " \x7b\nentry:\n" ++
        (String.join (body.map fun i => "  " ++ i.toText ++ "\n") ++ "\x7d\n") := by
  rw [render, found, ← String.append_assoc]
  rfl

end Module

end Ssa

namespace Prototype

theorem allotted_slots (p : Prototype) : Allotted p.args p.slots.1 where
  length_eq := NameSupply.length_freshAll .empty p.args
  nodup := by simpa [p.used_slots] using p.nodup_used_slots
  named := by
    intro i arg param at_arg at_param free
    rw [slots, NameSupply.getElem?_freshAll .empty at_arg] at at_param
    obtain rfl := Option.some.inj at_param
    have unused : arg ∉ (NameSupply.empty.freshAll (p.args.take i)).2.used := by
      rw [slots, NameSupply.take_freshAll] at free
      simpa [NameSupply.used_freshAll, NameSupply.empty] using free
    rw [NameSupply.fresh, if_neg unused]

theorem binds_scope (p : Prototype) {m : Module} (h : m.scope = p.scope) :
    m.Binds p.args p.slots.1 where
  last := by
    intro i arg at_arg last
    obtain ⟨param, at_param⟩ : ∃ param, p.slots.1[i]? = some param :=
      ⟨_, NameSupply.getElem?_freshAll .empty at_arg⟩
    have value : m.scope.lookup arg = some (.register param) := by
      rw [h, scope, lookup_reverse_zip, lastOf_map, lastOf_of_getElem? at_arg at_param last]
      rfl
    exact ⟨param, at_param, by rw [Module.argument, value]⟩
  other := by
    intro name absent
    have value : m.scope.lookup name = none := by
      rw [h, scope, lookup_reverse_zip, lastOf_eq_none absent]
    rw [Module.argument, value]

end Prototype

/-- A declaration, an opened body and the function with that body agree on the parameters. -/
theorem Prototype.declare_beginBody_params (p : Prototype) (m other : Module) :
    ∃ params declared opened names,
      m.declare p = .ok p.name declared ∧
      declared = { m with functions := m.functions ++ [⟨p.name, params, none⟩] } ∧
      other.beginBody p = .ok () opened ∧ opened.functions = other.functions ∧
      opened.builder = some ⟨params, [], names⟩ ∧
      Allotted p.args params ∧ opened.Binds p.args params ∧
      (∀ filled callable f result, Relation.ReflTransGen Module.BodyStep opened filled →
        filled.function? callable = some f →
        ∃ body closed, filled.finishBody callable result = .ok () closed ∧
          closed.function? callable = some ⟨f.name, params, some body⟩) ∧
      (m.function? p.name = none → declared.function? p.name = some ⟨p.name, params, none⟩) ∧
      ∀ (before after : Module) (callable : String) (body : Expr),
        before.function? p.name = some ⟨p.name, params, none⟩ →
        Definition.lower ⟨p, body⟩ before = .ok callable after →
        ∃ signature rest, before.render p.name = "declare " ++ signature ++ "\n" ∧
          after.render p.name = "define " ++ signature ++ " \x7b\nentry:\n" ++ rest := by
  refine ⟨p.slots.1, _, _, _, rfl, rfl, rfl, rfl, rfl, p.allotted_slots, p.binds_scope rfl,
    ?closed, fun new => Module.function?_declare new _ rfl, ?defined⟩
  case closed =>
    intro filled callable f result steps found
    exact Module.finishBody_of_openParams (Module.openParams_of_steps steps) found result
  case defined =>
    intro before after callable body found lowered
    obtain ⟨rfl, value, code, names, -, stored⟩ := Definition.function?_of_lower lowered
    exact ⟨_, _, Module.render_declared found, Module.render_defined stored⟩

end Formula
