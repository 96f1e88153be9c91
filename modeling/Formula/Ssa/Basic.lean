import Formula.Binary64.Basic

/-! # Functions in static single assignment

A function body is a list of instructions over numbers and registers. Every register is
a number, but for the truth value of a comparison, which is widened at once.

The text of a function follows LLVM assembly. A finite constant is written compactly, but always
with a fraction: one that has none gets it before its exponent. Infinities and NaNs, which have no
decimal, are given by their bits.
-/

namespace Formula

namespace Ssa

/-- An operand of an instruction. -/
inductive Value where
  | constant (value : Binary64)
  | register (name : String)
deriving DecidableEq, Inhabited

inductive Arithmetic where
  | add
  | sub
  | mul
deriving DecidableEq

inductive Operation where
  | arithmetic (op : Arithmetic)
  | less
deriving DecidableEq

def Operation.ofChar? : Char → Option Operation
  | '+' => some (arithmetic .add)
  | '-' => some (arithmetic .sub)
  | '*' => some (arithmetic .mul)
  | '<' => some less
  | _ => none

/-- One instruction; all but the last assign the register `result`. -/
inductive Instruction where
  | arithmetic (op : Arithmetic) (result : String) (lhs rhs : Value)
  /-- Unordered less-than; the result is a truth value. -/
  | compare (result : String) (lhs rhs : Value)
  /-- The truth value `flag` as the number 0 or 1. -/
  | widen (result flag : String)
  | call (result callee : String) (args : List Value)
  | ret (value : Value)
deriving DecidableEq

/-- A function, which is only declared as long as it has no body. -/
structure Function where
  name : String
  params : List String
  body : Option (List Instruction)
deriving DecidableEq

end Ssa

def Binary64.hexadecimal (x : Binary64) : String :=
  String.ofList (((Nat.toDigits 16 x.bits.toNat).leftpad 16 '0').map Char.toUpper)

/-- Insert the fraction `.0` before an exponent that has no point before it. -/
def Binary64.insertFraction (literal : List Char) : List Char :=
  match literal.findIdx? (· == 'e') with
  | none => literal
  | some mark =>
    if '.' ∈ literal.take mark then literal
    else literal.take mark ++ '.' :: '0' :: literal.drop mark

def Binary64.toConstant (x : Binary64) : String :=
  if x.isFinite then String.ofList (insertFraction (x.writeFinite .compact).toList)
  else "0x" ++ x.hexadecimal

namespace Ssa

def Value.toText : Value → String
  | constant value => value.toConstant
  | register name => "%" ++ name

def Arithmetic.mnemonic : Arithmetic → String
  | add => "fadd"
  | sub => "fsub"
  | mul => "fmul"

def operands (lhs rhs : Value) : String := "double " ++ lhs.toText ++ ", " ++ rhs.toText

def Instruction.toText : Instruction → String
  | arithmetic op result lhs rhs => "%" ++ result ++ " = " ++ op.mnemonic ++ " " ++ operands lhs rhs
  | compare result lhs rhs => "%" ++ result ++ " = fcmp ult " ++ operands lhs rhs
  | widen result flag => "%" ++ result ++ " = uitofp i1 %" ++ flag ++ " to double"
  | call result callee args =>
    "%" ++ result ++ " = call double @" ++ callee ++ "(" ++
      String.intercalate ", " (args.map fun arg => "double " ++ arg.toText) ++ ")"
  | ret value => "ret double " ++ value.toText

namespace Function

def signature (f : Function) : String :=
  "double @" ++ f.name ++ "(" ++
    String.intercalate ", " (f.params.map fun param => "double %" ++ param) ++ ")"

def toText (f : Function) : String :=
  match f.body with
  | none => "declare " ++ f.signature ++ "\n"
  | some instructions =>
    "define " ++ f.signature ++ " \x7b\nentry:\n" ++
      String.join (instructions.map fun instruction => "  " ++ instruction.toText ++ "\n") ++
      "\x7d\n"

end Function

end Ssa

end Formula
