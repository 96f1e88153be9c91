import Formula.Lowering.Basic
import Formula.Ssa.Basic

/-! # Modules

A supply hands out names for the values of one function and never hands out a name
twice. A base that was handed out before gets the first suffix that makes a new name;
the search goes on from the last suffix that the base got.

A module keeps functions in the order of their creation and finds them by name. At most
one body is under construction; nothing of it is in the module until it is finished.
-/

namespace Formula.Ssa

/-- The names that were handed out, and the last suffix of each base that got one. -/
structure NameSupply where
  used : List String
  suffixes : List (String × Nat)
deriving DecidableEq

namespace NameSupply

def empty : NameSupply := ⟨[], []⟩

def lastSuffix (supply : NameSupply) (base : String) : Nat :=
  (supply.suffixes.lookup base).getD 0

/--
The first suffix from the given one on that makes a name outside the pool. A name that is found
in the pool is taken out of it, so the search ends.
-/
def firstFree (pool : List String) (base : String) (suffix : Nat) : Nat :=
  if _h : base ++ toString suffix ∈ pool then
    firstFree (pool.erase (base ++ toString suffix)) base (suffix + 1)
  else suffix
termination_by pool.length
decreasing_by
  rw [List.length_erase_of_mem _h]
  exact Nat.sub_lt (List.length_pos_of_mem _h) (by decide)

/-- Hand out a name: the base itself, or the base with a suffix. -/
def fresh (supply : NameSupply) (base : String) : String × NameSupply :=
  if base ∈ supply.used then
    let suffix := firstFree supply.used base (supply.lastSuffix base + 1)
    let name := base ++ toString suffix
    (name, ⟨name :: supply.used, (base, suffix) :: supply.suffixes.filter (·.1 ≠ base)⟩)
  else (base, { supply with used := base :: supply.used })

def freshAll (supply : NameSupply) : List String → List String × NameSupply
  | [] => ([], supply)
  | base :: rest =>
    let (name, supply) := supply.fresh base
    let (names, supply) := supply.freshAll rest
    (name :: names, supply)

end NameSupply

structure Builder where
  params : List String
  instructions : List Instruction
  names : NameSupply
deriving DecidableEq

/-- Functions, and the body under construction with the values of its argument names. -/
structure Module where
  name : String
  functions : List Function
  scope : List (String × Value)
  builder : Option Builder
deriving DecidableEq

def Arithmetic.registerBase : Arithmetic → String
  | add => "addtmp"
  | sub => "subtmp"
  | mul => "multmp"

namespace Module

def empty (name : String) : Module := ⟨name, [], [], none⟩

/-- The first function of the given name. -/
def function? (m : Module) (name : String) : Option Function :=
  m.functions.find? (·.name == name)

/-- Add a declaration; parameters are named for the arguments, with suffixes where they repeat. -/
def declare (m : Module) (p : Prototype) : Lowered Module String :=
  let declaration : Function := ⟨p.name, (NameSupply.empty.freshAll p.args).1, none⟩
  .ok p.name { m with functions := m.functions ++ [declaration] }

def argument (m : Module) (name : String) : Lowered Module Value :=
  match m.scope.lookup name with
  | some value => .ok value m
  | none => .error (.unknownVariable name) m

/-- Append an instruction to the open body, with a fresh register for its result. -/
def emit (m : Module) (base : String) (instruction : String → Instruction) :
    Lowered Module String :=
  match m.builder with
  | none => .error .noInsertionPoint m
  | some builder =>
    let (result, names) := builder.names.fresh base
    let instructions := builder.instructions ++ [instruction result]
    .ok result { m with builder := some { builder with instructions, names } }

/-- Append an operation; a comparison is widened to a number. -/
def binary (m : Module) (op : Char) (lhs rhs : Value) : Lowered Module Value :=
  if m.builder.isNone then .error .noInsertionPoint m
  else
    match Operation.ofChar? op with
    | none => .error (.unknownOperator op) m
    | some (.arithmetic op) => (m.emit op.registerBase (.arithmetic op · lhs rhs)).map .register
    | some .less =>
      (m.emit "cmptmp" (.compare · lhs rhs)).andThen fun flag m =>
        (m.emit "booltmp" (.widen · flag)).map .register

def call (m : Module) (callee : String) (args : List Value) : Lowered Module Value :=
  (m.emit "calltmp" (.call · callee args)).map .register

/-- Open a body, in place of one that is open; a repeated argument name has its last parameter. -/
def beginBody (m : Module) (p : Prototype) : Lowered Module Unit :=
  let (params, names) := NameSupply.empty.freshAll p.args
  .ok () { m with
    scope := (p.args.zip (params.map .register)).reverse
    builder := some ⟨params, [], names⟩ }

def abandonBody (m : Module) : Module := { m with scope := [], builder := none }

def define (name : String) (params : List String) (body : List Instruction) :
    List Function → List Function
  | [] => []
  | f :: rest =>
    if f.name = name then { f with params, body := some body } :: rest
    else f :: define name params body rest

/-- Close the open body with its result. -/
def finishBody (m : Module) (name : String) (result : Value) : Lowered Module Unit :=
  match m.builder with
  | none => .error .noInsertionPoint m
  | some builder =>
    let closed := m.abandonBody
    if (m.function? name).isNone then .error (.unknownFunction name) closed
    else
      let body := builder.instructions ++ [.ret result]
      .ok () { closed with functions := define name builder.params body m.functions }

/-- Remove the functions of the given name. -/
def erase (m : Module) (name : String) : Module :=
  { m with functions := m.functions.filter (·.name ≠ name) }

def render (m : Module) (name : String) : String := ((m.function? name).map (·.toText)).getD ""

def toText (m : Module) : String :=
  "; ModuleID = '" ++ m.name ++ "'\n" ++ String.join (m.functions.map fun f => "\n" ++ f.toText)

end Module

instance : LoweringTarget Module Value String where
  find? m name := (m.function? name).map (·.name)
  arity m name := ((m.function? name).map (·.params.length)).getD 0
  hasBody m name := (m.function? name).any (·.body.isSome)
  declare := Module.declare
  constant m value := .ok (.constant value) m
  argument := Module.argument
  binary := Module.binary
  call := Module.call
  beginBody m _ p := m.beginBody p
  finishBody := Module.finishBody
  abandonBody m _ := m.abandonBody
  erase := Module.erase
  render := Module.render
  renderModule := Module.toText

end Formula.Ssa
