import Formula.Proofs.Binary64.Literal
import Formula.Proofs.Lowering.Closed
import Formula.Proofs.Ssa.WellFormed

/-! # The text of a module is unambiguous

The names in a module are words of letters and digits, and neither a word nor a constant has a
character that stands between operands, behind arguments or at the end of a line. Where two
texts are equal, therefore, the parts that they begin with are equal, and the texts go on alike.
From operands on this goes up to whole modules.
-/

namespace Formula

open Token

namespace Text

/-- Where an end follows, equal texts begin with the text of the same value and go on alike. -/
def Delimits {α : Type} (Ends : List Char → Prop) (Good : α → Prop) (text : α → List Char) : Prop :=
  ∀ ⦃a b : α⦄ ⦃rest rest' : List Char⦄, Good a → Good b → Ends rest → Ends rest' →
    text a ++ rest = text b ++ rest' → a = b ∧ rest = rest'

variable {α : Type} {Ends : List Char → Prop} {Good : α → Prop} {text : α → List Char}
  {c : Char} {rest : List Char}

theorem Delimits.prepend (h : Delimits Ends Good text) (lead : List Char) :
    Delimits Ends Good fun a => lead ++ text a := by
  intro a b rest rest' ha hb hr hr' same
  simp only [List.append_assoc] at same
  exact h ha hb hr hr' (List.append_cancel_left same)

theorem Delimits.append (h : Delimits Ends Good text) (last : List Char)
    (ends : ∀ rest, Ends (last ++ rest)) :
    Delimits (fun _ => True) Good fun a => text a ++ last := by
  intro a b rest rest' ha hb _ _ same
  simp only [List.append_assoc] at same
  obtain ⟨rfl, alike⟩ := h ha hb (ends rest) (ends rest') same
  exact ⟨rfl, List.append_cancel_left alike⟩

theorem ne_append_of_head? (begins : ∀ a, (text a).head? = some c) (hr : rest.head? ≠ some c)
    (a : α) (more : List Char) : rest ≠ text a ++ more := by
  rintro rfl
  simp [begins a] at hr

theorem ends_flatMap (next : ∀ rest, Ends (c :: rest)) (begins : ∀ a, (text a).head? = some c)
    (hr : Ends rest) (values : List α) : Ends (values.flatMap text ++ rest) := by
  cases values with
  | nil => exact hr
  | cons a values =>
    obtain ⟨more, spelled⟩ := List.head?_eq_some_iff.mp (begins a)
    simpa [spelled] using next _

/-- Texts that begin with one character may follow each other, up to another character. -/
theorem Delimits.flatMap (h : Delimits Ends Good text) (next : ∀ rest, Ends (c :: rest))
    (begins : ∀ a, (text a).head? = some c) :
    Delimits (fun rest => Ends rest ∧ rest.head? ≠ some c) (fun values => ∀ a ∈ values, Good a)
      fun values : List α => values.flatMap text := by
  intro values
  induction values with
  | nil =>
    rintro (_ | ⟨b, others⟩) rest rest' - - ⟨-, hr⟩ - same
    · exact ⟨rfl, same⟩
    · simp only [List.flatMap_cons, List.append_assoc] at same
      exact absurd same (ne_append_of_head? begins hr b _)
  | cons a values ih =>
    rintro (_ | ⟨b, others⟩) rest rest' good good' ⟨hr, stops⟩ ⟨hr', stops'⟩ same
    · simp only [List.flatMap_cons, List.append_assoc] at same
      exact absurd same.symm (ne_append_of_head? begins stops' a _)
    · simp only [List.flatMap_cons, List.append_assoc] at same
      obtain ⟨first, values_good⟩ := List.forall_mem_cons.mp good
      obtain ⟨first', others_good⟩ := List.forall_mem_cons.mp good'
      obtain ⟨rfl, onward⟩ := h first first' (ends_flatMap next begins hr values)
        (ends_flatMap next begins hr' others) same
      obtain ⟨rfl, alike⟩ := ih values_good others_good ⟨hr, stops⟩ ⟨hr', stops'⟩ onward
      exact ⟨rfl, alike⟩

theorem intercalate_cons (separator first : List Char) (rest : List (List Char)) :
    separator.intercalate (first :: rest) = first ++ rest.flatMap (separator ++ ·) := by
  induction rest generalizing first with
  | nil => simp
  | cons second rest ih => simp [List.intercalate_cons_cons, ih]

theorem Delimits.intercalate (h : Delimits Ends Good text) (next : ∀ rest, Ends (',' :: rest))
    (last : ∀ rest, Ends (')' :: rest)) (begins : ∀ a, (text a).head? = some c) (hc : c ≠ ')') :
    Delimits (fun rest => rest.head? = some ')') (fun values => ∀ a ∈ values, Good a)
      fun values : List α => [',', ' '].intercalate (values.map text) := by
  have others := (h.prepend [',', ' ']).flatMap (c := ',') next fun a => rfl
  have stops {rest : List Char} (closed : rest.head? = some ')') :
      Ends rest ∧ rest.head? ≠ some ',' := by
    obtain ⟨more, rfl⟩ := List.head?_eq_some_iff.mp closed
    exact ⟨last more, by simp⟩
  have apart {rest : List Char} (closed : rest.head? = some ')') : rest.head? ≠ some c := by
    rw [closed]
    exact fun same => hc (Option.some.inj same).symm
  rintro (_ | ⟨a, values⟩) (_ | ⟨b, values'⟩) rest rest' good good' closed closed' same
  · exact ⟨rfl, same⟩
  · simp only [List.map_cons, intercalate_cons, List.append_assoc] at same
    exact absurd same (ne_append_of_head? begins (apart closed) b _)
  · simp only [List.map_cons, intercalate_cons, List.append_assoc] at same
    exact absurd same.symm (ne_append_of_head? begins (apart closed') a _)
  · simp only [List.map_cons, intercalate_cons, List.flatMap_map, List.append_assoc] at same
    obtain ⟨first, values_good⟩ := List.forall_mem_cons.mp good
    obtain ⟨first', values_good'⟩ := List.forall_mem_cons.mp good'
    obtain ⟨rfl, onward⟩ := h first first'
      (ends_flatMap next (fun a => rfl) (stops closed).1 values)
      (ends_flatMap next (fun a => rfl) (stops closed').1 values') same
    obtain ⟨rfl, alike⟩ := others values_good values_good' (stops closed) (stops closed') onward
    exact ⟨rfl, alike⟩

end Text

def IsWord (name : String) : Prop := ∀ c ∈ name.toList, c.isAlphanum = true

instance (name : String) : Decidable (IsWord name) := decidable_of_iff _ List.all_eq_true

namespace Ssa

def isOperandPart (c : Char) : Bool := c.isAlphanum || c == '%' || c == '-' || c == '.'

def Value.Spelled (value : Value) : Prop := ∀ r, value.register? = some r → IsWord r

/-- The registers and the callee of an instruction are words. -/
structure Instruction.Spelled (i : Instruction) : Prop where
  result (r : String) : i.result? = some r → IsWord r
  reads : ∀ r ∈ i.reads, IsWord r
  callee (call : String × Nat) : i.call? = some call → IsWord call.1

structure Function.Spelled (f : Function) : Prop where
  name : IsWord f.name
  params : ∀ param ∈ f.params, IsWord param
  body : ∀ i ∈ f.body.getD [], i.Spelled

open Text

theorem delimits_word : Delimits (Stops Char.isAlphanum) IsWord String.toList := by
  intro name name' rest rest' all all' stops stops' same
  obtain ⟨chars, alike⟩ := stops.append_inj stops' all all' same
  exact ⟨String.ext chars, alike⟩

namespace Value

theorem isOperandPart_of_mem_toText {value : Value} (h : value.Spelled) {c : Char}
    (hc : c ∈ value.toText.toList) : isOperandPart c = true := by
  cases value with
  | constant x =>
    rcases Binary64.mem_toConstant hc with alphanum | rfl | rfl
    · simp [isOperandPart, alphanum]
    · decide
    · decide
  | register name =>
    rcases List.mem_cons.mp (by simpa [toText] using hc) with rfl | inner
    · decide
    · have alphanum : c.isAlphanum = true := h name rfl c inner
      simp [isOperandPart, alphanum]

/-- A constant has no percent sign, and a register has one in front. -/
theorem toText_inj {value other : Value} : value.toText = other.toText ↔ value = other := by
  have apart (x : Binary64) (name : String) : (constant x).toText ≠ (register name).toText := by
    intro same
    have mark : '%' ∈ x.toConstant.toList := by
      rw [show x.toConstant = _ from same]
      simp [toText]
    rcases Binary64.mem_toConstant mark with alphanum | dash | point
    · cases alphanum
    · cases dash
    · cases point
  constructor
  · intro same
    cases value <;> cases other
    · exact congrArg constant (Binary64.toConstant_inj.mp same)
    · exact absurd same (apart _ _)
    · exact absurd same.symm (apart _ _)
    · simpa [toText] using same
  · rintro rfl
    rfl

theorem delimits_toText :
    Delimits (Stops isOperandPart) Spelled fun value => value.toText.toList := by
  intro value other rest rest' h h' stops stops' same
  obtain ⟨chars, alike⟩ := stops.append_inj stops' (fun _ => isOperandPart_of_mem_toText h)
    (fun _ => isOperandPart_of_mem_toText h') same
  exact ⟨toText_inj.mp (String.ext chars), alike⟩

end Value

theorem delimits_arguments : Delimits (fun rest => rest.head? = some ')')
    (fun args => ∀ arg ∈ args, arg.Spelled) fun args : List Value =>
      (String.intercalate ", " (args.map fun arg => "double " ++ arg.toText)).toList := by
  have typed := Value.delimits_toText.prepend "double ".toList
  have listed := typed.intercalate (c := 'd') (stops_cons (by decide)) (stops_cons (by decide))
    (fun arg => by simp) (by decide)
  simpa [Function.comp_def] using listed

theorem operands_append_inj {lhs rhs lhs' rhs' : Value} {rest rest' : List Char}
    (same : (operands lhs rhs).toList ++ '\n' :: rest =
      (operands lhs' rhs').toList ++ '\n' :: rest')
    (h : ∀ value ∈ [lhs, rhs], value.Spelled) (h' : ∀ value ∈ [lhs', rhs'], value.Spelled) :
    lhs = lhs' ∧ rhs = rhs' ∧ rest = rest' := by
  have first : lhs.toText.toList ++ ',' :: ' ' :: (rhs.toText.toList ++ '\n' :: rest) =
      lhs'.toText.toList ++ ',' :: ' ' :: (rhs'.toText.toList ++ '\n' :: rest') := by
    simpa [operands] using same
  obtain ⟨rfl, second⟩ := Value.delimits_toText (h lhs (by simp)) (h' lhs' (by simp))
    (stops_cons (by decide) _) (stops_cons (by decide) _) first
  simp only [List.cons.injEq, true_and] at second
  obtain ⟨rfl, alike⟩ := Value.delimits_toText (h rhs (by simp)) (h' rhs' (by simp))
    (stops_cons (by decide) _) (stops_cons (by decide) _) second
  exact ⟨rfl, rfl, (List.cons.inj alike).2⟩

def application (name : String) (args : List Value) : String :=
  "double @" ++ name ++ "(" ++
    String.intercalate ", " (args.map fun arg => "double " ++ arg.toText) ++ ")"

theorem application_append_inj {name name' : String} {args args' : List Value}
    {rest rest' : List Char}
    (same : (application name args).toList ++ rest = (application name' args').toList ++ rest')
    (hn : IsWord name) (hn' : IsWord name') (ha : ∀ arg ∈ args, arg.Spelled)
    (ha' : ∀ arg ∈ args', arg.Spelled) :
    name = name' ∧ args = args' ∧ rest = rest' := by
  simp only [application, String.toList_append, List.append_assoc,
    List.append_cancel_left_eq] at same
  obtain ⟨rfl, behind⟩ := delimits_word hn hn' (stops_cons (by decide) _)
    (stops_cons (by decide) _) same
  obtain ⟨rfl, alike⟩ := delimits_arguments ha ha' rfl rfl (List.cons.inj behind).2
  exact ⟨rfl, rfl, (List.cons.inj alike).2⟩

namespace Instruction

/-- What an instruction assigns to its result, or returns. -/
def operation : Instruction → String
  | arithmetic op _ lhs rhs => op.mnemonic ++ " " ++ operands lhs rhs
  | compare _ lhs rhs => "fcmp ult " ++ operands lhs rhs
  | widen _ flag => "uitofp i1 %" ++ flag ++ " to double"
  | call _ callee args => "call " ++ application callee args
  | ret value => "ret double " ++ value.toText

theorem toList_toText (i : Instruction) :
    i.toText.toList =
      (i.result?.map fun r => '%' :: (r.toList ++ " = ".toList)).getD [] ++ i.operation.toList := by
  cases i <;> simp [toText, result?, operation, application]

variable {i j : Instruction} {rest rest' : List Char}

theorem Spelled.number (h : i.Spelled) {value : Value} (mem : value ∈ i.numbers) :
    value.Spelled := by
  intro r held
  exact h.reads r (List.mem_append_left _ (List.mem_filterMap.mpr ⟨value, mem, held⟩))

theorem Spelled.flag (h : i.Spelled) {flag : String} (widened : i.flag? = some flag) :
    IsWord flag := h.reads flag (List.mem_append_right _ (by simp [widened]))

/-- The same text is assigned by the same operation; the first word tells the operations apart. -/
theorem operation_append_inj (h : i.Spelled) (h' : j.Spelled) (results : i.result? = j.result?)
    (same : i.operation.toList ++ '\n' :: rest = j.operation.toList ++ '\n' :: rest') :
    i = j ∧ rest = rest' := by
  cases i with
  | arithmetic op result lhs rhs =>
    cases j with
    | arithmetic op' result' lhs' rhs' =>
      obtain ⟨rfl, behind⟩ : op = op' ∧ (operands lhs rhs).toList ++ '\n' :: rest =
          (operands lhs' rhs').toList ++ '\n' :: rest' := by
        cases op <;> cases op' <;> simp [operation, Arithmetic.mnemonic] at same <;>
          exact ⟨rfl, same⟩
      obtain ⟨rfl, rfl, alike⟩ := operands_append_inj behind (fun _ => h.number) fun _ => h'.number
      exact ⟨by simpa [result?] using results, alike⟩
    | _ => cases op <;> simp [operation, Arithmetic.mnemonic] at same
  | compare result lhs rhs =>
    cases j with
    | compare result' lhs' rhs' =>
      have behind : (operands lhs rhs).toList ++ '\n' :: rest =
          (operands lhs' rhs').toList ++ '\n' :: rest' := by simpa [operation] using same
      obtain ⟨rfl, rfl, alike⟩ := operands_append_inj behind (fun _ => h.number) fun _ => h'.number
      exact ⟨by simpa [result?] using results, alike⟩
    | arithmetic op => cases op <;> simp [operation, Arithmetic.mnemonic] at same
    | _ => simp [operation] at same
  | widen result flag =>
    cases j with
    | widen result' flag' =>
      have behind : flag.toList ++ ' ' :: ("to double\n".toList ++ rest) =
          flag'.toList ++ ' ' :: ("to double\n".toList ++ rest') := by simpa [operation] using same
      obtain ⟨rfl, alike⟩ := delimits_word (h.flag rfl) (h'.flag rfl) (stops_cons (by decide) _)
        (stops_cons (by decide) _) behind
      exact ⟨by simpa [result?] using results, List.append_cancel_left (List.cons.inj alike).2⟩
    | arithmetic op => cases op <;> simp [operation, Arithmetic.mnemonic] at same
    | _ => simp [operation] at same
  | call result callee args =>
    cases j with
    | call result' callee' args' =>
      have behind : (application callee args).toList ++ '\n' :: rest =
          (application callee' args').toList ++ '\n' :: rest' := by simpa [operation] using same
      obtain ⟨rfl, rfl, alike⟩ := application_append_inj behind (h.callee _ rfl)
        (h'.callee _ rfl) (fun _ => h.number) fun _ => h'.number
      exact ⟨by simpa [result?] using results, (List.cons.inj alike).2⟩
    | arithmetic op => cases op <;> simp [operation, Arithmetic.mnemonic] at same
    | _ => simp [operation] at same
  | ret value =>
    cases j with
    | ret value' =>
      have behind : value.toText.toList ++ '\n' :: rest =
          value'.toText.toList ++ '\n' :: rest' := by simpa [operation] using same
      obtain ⟨rfl, alike⟩ := Value.delimits_toText (h.number (by simp [numbers]))
        (h'.number (by simp [numbers])) (stops_cons (by decide) _) (stops_cons (by decide) _) behind
      exact ⟨rfl, (List.cons.inj alike).2⟩
    | arithmetic op => cases op <;> simp [operation, Arithmetic.mnemonic] at same
    | _ => simp [operation] at same

theorem exists_head_operation (i : Instruction) :
    ∃ c more, i.operation.toList = c :: more ∧ c ≠ '%' := by
  have head : ∃ c, i.operation.toList.head? = some c ∧ c ≠ '%' := by
    cases i with
    | arithmetic op => cases op <;> exact ⟨'f', by simp [operation, Arithmetic.mnemonic], by decide⟩
    | compare => exact ⟨'f', by simp [operation], by decide⟩
    | widen => exact ⟨'u', by simp [operation], by decide⟩
    | call => exact ⟨'c', by simp [operation], by decide⟩
    | ret => exact ⟨'r', by simp [operation], by decide⟩
  obtain ⟨c, begins, other⟩ := head
  obtain ⟨more, spelled⟩ := List.head?_eq_some_iff.mp begins
  exact ⟨c, more, spelled, other⟩

theorem delimits_toText :
    Delimits (fun rest => ∃ more, rest = '\n' :: more) Spelled fun i => i.toText.toList := by
  rintro i j _ _ h h' ⟨rest, rfl⟩ ⟨rest', rfl⟩ same
  simp only [toList_toText] at same
  obtain ⟨c, more, begins, other⟩ := i.exists_head_operation
  obtain ⟨c', more', begins', other'⟩ := j.exists_head_operation
  cases hr : i.result? with
  | none =>
    cases hr' : j.result? with
    | none =>
      simp only [hr, hr', Option.map_none, Option.getD_none, List.nil_append] at same
      obtain ⟨alike, behind⟩ := operation_append_inj h h' (hr.trans hr'.symm) same
      exact ⟨alike, congrArg _ behind⟩
    | some r' => simp [hr, hr', begins, other] at same
  | some r =>
    cases hr' : j.result? with
    | none => simp [hr, hr', begins', other'.symm] at same
    | some r' =>
      have assigned : r.toList ++ ' ' :: ("= ".toList ++ i.operation.toList ++ '\n' :: rest) =
          r'.toList ++ ' ' :: ("= ".toList ++ j.operation.toList ++ '\n' :: rest') := by
        simpa [hr, hr'] using same
      obtain ⟨rfl, onward⟩ := delimits_word (h.result r hr) (h'.result r' hr')
        (stops_cons (by decide) _) (stops_cons (by decide) _) assigned
      simp only [List.append_assoc, List.cons.injEq, true_and, List.append_cancel_left_eq] at onward
      obtain ⟨alike, behind⟩ := operation_append_inj h h' (hr.trans hr'.symm) onward
      exact ⟨alike, congrArg _ behind⟩

end Instruction

theorem delimits_lines : Delimits (fun rest => rest.head? ≠ some ' ')
    (fun body => ∀ i ∈ body, i.Spelled) fun body : List Instruction =>
      (String.join (body.map fun i => "  " ++ i.toText ++ "\n")).toList := by
  have line := (Instruction.delimits_toText.append ['\n'] fun rest => ⟨rest, rfl⟩).prepend
    "  ".toList
  have lines := line.flatMap (c := ' ') (fun _ => trivial) fun i => by simp
  simpa [Function.comp_def, List.flatMap_map] using lines

namespace Function

variable {f g : Function} {rest rest' : List Char}

theorem signature_eq (f : Function) :
    f.signature = application f.name (f.params.map .register) := by
  have typed (param : String) : "double %" ++ param = "double " ++ ("%" ++ param) := by
    rw [← String.append_assoc]
    rfl
  simp [signature, application, Value.toText, Function.comp_def, typed]

theorem Spelled.signature_append_inj (h : f.Spelled) (h' : g.Spelled)
    (same : f.signature.toList ++ rest = g.signature.toList ++ rest') :
    f.name = g.name ∧ f.params = g.params ∧ rest = rest' := by
  have registers {f : Function} (h : f.Spelled) :
      ∀ arg ∈ f.params.map Value.register, arg.Spelled := by
    rintro _ mem r held
    obtain ⟨param, among, rfl⟩ := List.mem_map.mp mem
    obtain rfl := Option.some.inj held
    exact h.params _ among
  rw [signature_eq, signature_eq] at same
  obtain ⟨name, params, alike⟩ :=
    application_append_inj same h.name h'.name (registers h) (registers h')
  exact ⟨name, List.map_injective_iff.mpr (fun _ _ => Value.register.inj) params, alike⟩

theorem delimits_toText : Delimits (fun _ => True) Spelled fun f => f.toText.toList := by
  rintro ⟨name, params, body⟩ ⟨name', params', body'⟩ rest rest' h h' _ _ same
  cases body with
  | none =>
    cases body' with
    | none =>
      have behind : (signature ⟨name, params, none⟩).toList ++ '\n' :: rest =
          (signature ⟨name', params', none⟩).toList ++ '\n' :: rest' := by
        simpa [toText] using same
      obtain ⟨rfl, rfl, alike⟩ := h.signature_append_inj h' behind
      exact ⟨rfl, (List.cons.inj alike).2⟩
    | some body' => simp [toText] at same
  | some body =>
    cases body' with
    | none => simp [toText] at same
    | some body' =>
      have behind : (signature ⟨name, params, some body⟩).toList ++ (" \x7b\nentry:\n".toList ++
          ((String.join (body.map fun i => "  " ++ i.toText ++ "\n")).toList ++
            '\x7d' :: '\n' :: rest)) =
          (signature ⟨name', params', some body'⟩).toList ++ (" \x7b\nentry:\n".toList ++
          ((String.join (body'.map fun i => "  " ++ i.toText ++ "\n")).toList ++
            '\x7d' :: '\n' :: rest')) := by
        simpa [toText] using same
      obtain ⟨rfl, rfl, opened⟩ := h.signature_append_inj h' behind
      obtain ⟨rfl, alike⟩ := delimits_lines h.body h'.body (by simp) (by simp)
        (List.append_cancel_left opened)
      exact ⟨rfl, by simpa using alike⟩

theorem toText_inj (h : f.Spelled) (h' : g.Spelled) : f.toText = g.toText ↔ f = g := by
  refine ⟨fun same => ?_, congrArg toText⟩
  have chars : f.toText.toList ++ [] = g.toText.toList ++ [] := by rw [same]
  exact (delimits_toText h h' trivial trivial chars).1

end Function

def Module.Spelled (m : Module) : Prop := ∀ f ∈ m.functions, f.Spelled

theorem Module.toText_inj {m m' : Module} (h : m.Spelled) (h' : m'.Spelled)
    (name : m.name = m'.name) : m.toText = m'.toText ↔ m.functions = m'.functions := by
  unfold toText
  constructor
  · intro same
    rw [name, String.append_right_inj] at same
    have chars : m.functions.flatMap (fun f => ['\n'] ++ f.toText.toList) ++ [] =
        m'.functions.flatMap (fun f => ['\n'] ++ f.toText.toList) ++ [] := by
      simpa [List.flatMap_map] using congrArg String.toList same
    have parted := (Function.delimits_toText.prepend ['\n']).flatMap (c := '\n')
      (fun _ => trivial) fun f => rfl
    exact (parted h h' ⟨trivial, by simp⟩ ⟨trivial, by simp⟩ chars).1
  · intro same
    rw [name, same]

/-- A name that is no word can pass for the end of one function and the head of another. -/
example : Module.toText ⟨"m", [⟨"f()\n\ndeclare double @g", [], none⟩], [], none⟩ =
    Module.toText ⟨"m", [⟨"f", [], none⟩, ⟨"g", [], none⟩], [], none⟩ := by rfl

end Ssa

end Formula
