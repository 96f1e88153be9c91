import Formula.Operator.Table
import Formula.Proofs.Text.Integer

/-! # Well-formed operator entries

An entry is an ASCII character, an equals sign and an integer of 32 bits between blanks. The sign
is the last one of the text, so that the character may be an equals sign, and the integer may be
written with a plus sign and leading zeros. What is no entry is rejected for the first part that is
missing or malformed: the separator, the operator, the strength.
-/

namespace Formula.OperatorEntry

open Text OperatorTable

variable {text before after : List Char} {separator c : Char}

theorem splitLast_eq_none_iff : splitLast separator text = none ↔ separator ∉ text := by
  induction text with
  | nil => simp [splitLast]
  | cons c rest ih =>
    rw [splitLast, List.mem_cons, not_or, ← ih]
    cases splitLast separator rest with
    | none => simp [eq_comm]
    | some parts => simp

theorem splitLast_eq_some_iff :
    splitLast separator text = some (before, after) ↔
      text = before ++ separator :: after ∧ separator ∉ after := by
  constructor
  · intro split
    induction text generalizing before with
    | nil => cases split
    | cons c rest ih =>
      rw [splitLast] at split
      cases later : splitLast separator rest with
      | some parts =>
        rw [later] at split
        cases split
        obtain ⟨rfl, last⟩ := ih later
        exact ⟨rfl, last⟩
      | none =>
        rw [later] at split
        obtain ⟨rfl, parts⟩ := Option.ite_none_right_eq_some.mp split
        cases parts
        exact ⟨rfl, splitLast_eq_none_iff.mp later⟩
  · rintro ⟨rfl, last⟩
    induction before with
    | nil => rw [List.nil_append, splitLast, splitLast_eq_none_iff.mpr last, if_pos rfl]
    | cons c before ih => rw [List.cons_append, splitLast, ih]

def IsOperator (text : List Char) : Prop := ∃ c, text = [c] ∧ isAscii c = true

/-- The text is the operator, an equals sign, and the strength between blanks. -/
def Writes (text : List Char) (entry : OperatorEntry) : Prop :=
  ∃ strength core, text = entry.op :: '=' :: strength ∧ isAscii entry.op = true ∧
    '=' ∉ strength ∧ Trimmed strength core ∧ WritesInt core entry.strength.toInt

inductive Reads (text : String) : Except EntryError OperatorEntry → Prop where
  | missingSeparator : '=' ∉ text.toList → Reads text (.error (.missingSeparator text))
  | invalidOperator {op strength : List Char} : text.toList = op ++ '=' :: strength →
    '=' ∉ strength → ¬ IsOperator op → Reads text (.error (.invalidOperator (.ofList op)))
  | invalidStrength {op : Char} {strength : List Char} : text.toList = op :: '=' :: strength →
    '=' ∉ strength → isAscii op = true → (∀ n, ¬ Writes text.toList ⟨op, n⟩) →
    Reads text (.error (.invalidStrength (.ofList strength)))
  | entry {entry : OperatorEntry} : Writes text.toList entry → Reads text (.ok entry)

section

variable {text : String} {op strength : List Char} {result : Except EntryError OperatorEntry}

theorem ofText_of_not_isOperator (parts : splitLast '=' text.toList = some (op, strength))
    (h : ¬ IsOperator op) : ofText text = .error (.invalidOperator (.ofList op)) := by
  unfold ofText
  split
  next none => simp [parts] at none
  next c strength' same =>
    obtain ⟨rfl, rfl⟩ := Prod.mk.inj (Option.some.inj (parts.symm.trans same))
    rw [if_neg fun ascii => h ⟨c, rfl, ascii⟩]
  next op' strength' _ same =>
    obtain ⟨rfl, rfl⟩ := Prod.mk.inj (Option.some.inj (parts.symm.trans same))
    rfl

theorem ofText_of_isAscii (parts : splitLast '=' text.toList = some ([c], strength))
    (ascii : isAscii c = true) :
    ofText text = ((int32Of? (trimBlanks strength)).map fun n => .ok ⟨c, n⟩).getD
      (.error (.invalidStrength (.ofList strength))) := by
  simp only [ofText, parts, ascii, if_true]
  cases int32Of? (trimBlanks strength) <;> rfl

theorem int32Of?_trimBlanks_iff {n : Int32} (last : '=' ∉ strength) (ascii : isAscii c = true) :
    int32Of? (trimBlanks strength) = some n ↔ Writes (c :: '=' :: strength) ⟨c, n⟩ := by
  rw [int32Of?_eq_some_iff]
  constructor
  · intro writes
    exact ⟨strength, _, rfl, ascii, last, trimmed_trimBlanks strength, writes⟩
  · rintro ⟨strength', core, same, -, -, trimmed, writes⟩
    obtain rfl : strength = strength' := by simpa using same
    rwa [trimmed.trimBlanks_eq]

theorem reads_ofText (text : String) : Reads text (ofText text) := by
  cases parts : splitLast '=' text.toList with
  | none =>
    rw [ofText, parts]
    exact .missingSeparator (splitLast_eq_none_iff.mp parts)
  | some parts' =>
    obtain ⟨op, strength⟩ := parts'
    obtain ⟨written, last⟩ := splitLast_eq_some_iff.mp parts
    by_cases operator : IsOperator op
    · obtain ⟨c, rfl, ascii⟩ := operator
      rw [ofText_of_isAscii parts ascii]
      cases read : int32Of? (trimBlanks strength) with
      | some n => exact .entry (written ▸ (int32Of?_trimBlanks_iff last ascii).mp read)
      | none =>
        refine .invalidStrength written last ascii fun n writes => ?_
        rw [written] at writes
        have := (int32Of?_trimBlanks_iff last ascii).mpr writes
        rw [read] at this
        cases this
    · rw [ofText_of_not_isOperator parts operator]
      exact .invalidOperator written last operator

theorem Reads.ofText_eq (h : Reads text result) : ofText text = result := by
  cases h with
  | missingSeparator absent => rw [ofText, splitLast_eq_none_iff.mpr absent]
  | invalidOperator written last operator =>
    exact ofText_of_not_isOperator (splitLast_eq_some_iff.mpr ⟨written, last⟩) operator
  | @invalidStrength c strength written last ascii unwritten =>
    rw [ofText_of_isAscii (splitLast_eq_some_iff.mpr ⟨written, last⟩) ascii]
    cases read : int32Of? (trimBlanks strength) with
    | some n => exact absurd (written ▸ (int32Of?_trimBlanks_iff last ascii).mp read) (unwritten n)
    | none => rfl
  | @entry entry writes =>
    obtain ⟨strength, core, written, ascii, last, -⟩ := id writes
    rw [written] at writes
    rw [ofText_of_isAscii (splitLast_eq_some_iff.mpr ⟨written, last⟩) ascii,
      (int32Of?_trimBlanks_iff last ascii).mpr writes]
    rfl

theorem ofText_eq_iff : ofText text = result ↔ Reads text result := by
  constructor
  · rintro rfl
    exact reads_ofText text
  · exact Reads.ofText_eq

end

theorem writes_toString {c : Char} (ascii : isAscii c = true) (n : Int32) :
    Writes (c.toString ++ "=" ++ toString n).toList ⟨c, n⟩ := by
  have literal := WritesInt.literal (.ofInt n.toInt)
  have trimmed := (IntegerLiteral.ofInt n.toInt).trimmed_chars
  rw [IntegerLiteral.value_ofInt] at literal
  refine ⟨(IntegerLiteral.ofInt n.toInt).chars, _, ?_, ascii, fun mem => ?_, trimmed, literal⟩
  · rw [IntegerLiteral.chars_ofInt, String.toList_append, String.toList_append,
      Char.toString, String.toList_singleton]
    rfl
  · rcases IntegerLiteral.eq_minus_or_isDigit mem with minus | digit
    · cases minus
    · cases digit

/-- A text is an entry exactly where its parts are well-formed, and a fault is that of a part. -/
theorem ofText_decided (text : String) :
    (∀ entry, ofText text = .ok entry ↔ Writes text.toList entry) ∧
    (∀ shown, ofText text = .error (.missingSeparator shown) ↔
      shown = text ∧ '=' ∉ text.toList) ∧
    (∀ op, ofText text = .error (.invalidOperator op) ↔
      ∃ strength, text.toList = op.toList ++ '=' :: strength ∧ '=' ∉ strength ∧
        ¬ IsOperator op.toList) ∧
    (∀ strength, ofText text = .error (.invalidStrength strength) ↔
      ∃ op, text.toList = op :: '=' :: strength.toList ∧ '=' ∉ strength.toList ∧
        isAscii op = true ∧ ∀ n, ¬ Writes text.toList ⟨op, n⟩) ∧
    ∀ c n, isAscii c = true → ofText (c.toString ++ "=" ++ toString n) = .ok ⟨c, n⟩ := by
  refine ⟨fun entry => ?_, fun shown => ?_, fun op => ?_, fun strength => ?_, fun c n ascii => ?_⟩
  · rw [ofText_eq_iff]
    exact ⟨fun | .entry writes => writes, .entry⟩
  · rw [ofText_eq_iff]
    constructor
    · rintro ⟨absent⟩
      exact ⟨rfl, absent⟩
    · rintro ⟨rfl, absent⟩
      exact .missingSeparator absent
  · rw [ofText_eq_iff]
    constructor
    · rintro (_ | ⟨written, last, operator⟩)
      exact ⟨_, by simpa using written, last, by simpa using operator⟩
    · rintro ⟨strength, written, last, operator⟩
      simpa using Reads.invalidOperator written last operator
  · rw [ofText_eq_iff]
    constructor
    · rintro (_ | _ | ⟨written, last, ascii, unwritten⟩)
      exact ⟨_, by simpa using written, by simpa using last, ascii, unwritten⟩
    · rintro ⟨op, written, last, ascii, unwritten⟩
      simpa using Reads.invalidStrength written last ascii unwritten
  · exact (Reads.entry (writes_toString ascii n)).ofText_eq

example : (ofText "==\u00a0+07 ").toOption = some ⟨'=', 7⟩ := by decide +kernel

end Formula.OperatorEntry
