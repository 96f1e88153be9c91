import Formula.Text.Basic

/-! # Operator tables

A table gives binary operators their binding strength, a positive number: higher binds
tighter. It keeps its entries sorted by operator, so that two tables with the same
entries are equal. Only ASCII characters are operators; an entry for another character
is kept and has no effect.

A written entry `OP=STRENGTH` declares one operator. It is split at its last equals sign, so
that the sign itself can be declared.
-/

namespace Formula

/-- Binding strengths of binary operators. -/
structure OperatorTable where
  entries : List (Char × Int32)
  sorted : entries.Pairwise (·.1 < ·.1)
  positive : ∀ entry ∈ entries, 0 < entry.2
deriving DecidableEq

namespace OperatorTable

def isAscii (c : Char) : Bool := decide (c.toNat < 128)

def empty : OperatorTable := ⟨[], .nil, by simp⟩

def insertSorted (op : Char) (strength : Int32) : List (Char × Int32) → List (Char × Int32)
  | [] => [(op, strength)]
  | (c, s) :: rest =>
    if op < c then (op, strength) :: (c, s) :: rest
    else if op = c then (op, strength) :: rest
    else (c, s) :: insertSorted op strength rest

theorem mem_insertSorted {op : Char} {strength : Int32} {entries : List (Char × Int32)}
    {entry : Char × Int32} (h : entry ∈ insertSorted op strength entries) :
    entry = (op, strength) ∨ entry ∈ entries := by
  induction entries with
  | nil => simpa [insertSorted] using h
  | cons head rest ih =>
    unfold insertSorted at h
    split at h
    · simpa using h
    · split at h
      · rcases List.mem_cons.mp h with h | h
        · exact .inl h
        · exact .inr (List.mem_cons_of_mem _ h)
      · rcases List.mem_cons.mp h with rfl | h
        · exact .inr List.mem_cons_self
        · exact (ih h).imp_right (List.mem_cons_of_mem _)

theorem sorted_insertSorted {op : Char} {strength : Int32} {entries : List (Char × Int32)}
    (h : entries.Pairwise (·.1 < ·.1)) :
    (insertSorted op strength entries).Pairwise (·.1 < ·.1) := by
  induction entries with
  | nil => exact List.pairwise_singleton _ _
  | cons head rest ih =>
    have ⟨before, tail⟩ := List.pairwise_cons.mp h
    unfold insertSorted
    split
    next lt =>
      refine List.pairwise_cons.mpr ⟨fun entry hm => ?_, h⟩
      rcases List.mem_cons.mp hm with rfl | hm
      · exact lt
      · exact Char.lt_trans lt (before _ hm)
    next =>
      split
      next eq =>
        subst eq
        exact List.pairwise_cons.mpr ⟨before, tail⟩
      next not_lt ne =>
        refine List.pairwise_cons.mpr ⟨fun entry hm => ?_, ih tail⟩
        rcases mem_insertSorted hm with rfl | hm
        · exact Char.not_le.mp fun le => ne (Char.le_antisymm (Char.not_lt.mp not_lt) le).symm
        · exact before _ hm

/-- Declare an operator or change its strength; a strength that is not positive removes it. -/
def set (table : OperatorTable) (op : Char) (strength : Int32) : OperatorTable :=
  if h : 0 < strength then
    { entries := insertSorted op strength table.entries
      sorted := sorted_insertSorted table.sorted
      positive := fun entry hm => by
        rcases mem_insertSorted hm with rfl | hm
        · exact h
        · exact table.positive entry hm }
  else
    { entries := table.entries.filter (·.1 ≠ op)
      sorted := table.sorted.filter _
      positive := fun entry hm => table.positive entry (List.mem_filter.mp hm).1 }

/-- Comparison, addition, subtraction and multiplication. -/
def standard : OperatorTable :=
  (((empty.set '<' 10).set '+' 20).set '-' 20).set '*' 40

instance : Inhabited OperatorTable := ⟨standard⟩

/-- The strength reported for a character that is not an operator. -/
def notAnOperator : Int32 := -1

/-- The strength of an operator. -/
def strength (table : OperatorTable) (op : Char) : Int32 :=
  if isAscii op then (table.entries.lookup op).getD notAnOperator else notAnOperator

def isOperator (table : OperatorTable) (op : Char) : Bool := decide (0 < table.strength op)

def operators (table : OperatorTable) : List (Char × Int32) :=
  table.entries.filter (isAscii ·.1)

end OperatorTable

/-- An operator and the strength it gets. -/
structure OperatorEntry where
  op : Char
  strength : Int32
deriving DecidableEq

inductive EntryError where
  | missingSeparator (text : String)
  | invalidOperator (op : String)
  | invalidStrength (strength : String)
deriving DecidableEq

def EntryError.message : EntryError → String
  | .missingSeparator text => "expected OP=PRECEDENCE, found '" ++ text ++ "'"
  | .invalidOperator op => "operator must be a single ascii character, found '" ++ op ++ "'"
  | .invalidStrength strength => "invalid precedence '" ++ strength ++ "'"

namespace OperatorEntry

/-- The parts of a text before and after its last separator. -/
def splitLast (separator : Char) : List Char → Option (List Char × List Char)
  | [] => none
  | c :: rest =>
    match splitLast separator rest with
    | some (before, after) => some (c :: before, after)
    | none => if c = separator then some ([], rest) else none

/-- Read an entry; blanks around the strength do not count. -/
def ofText (text : String) : Except EntryError OperatorEntry :=
  match splitLast '=' text.toList with
  | none => .error (.missingSeparator text)
  | some ([op], strength) =>
    if OperatorTable.isAscii op then
      match Text.int32Of? (Text.trimBlanks strength) with
      | some n => .ok ⟨op, n⟩
      | none => .error (.invalidStrength (String.ofList strength))
    else .error (.invalidOperator (String.ofList [op]))
  | some (op, _) => .error (.invalidOperator (String.ofList op))

def validate (text : String) : Except EntryError Unit := (ofText text).map fun _ => ()

def listOfTexts (texts : List String) : Except EntryError (List OperatorEntry) :=
  texts.mapM ofText

end OperatorEntry

def OperatorTable.extend (table : OperatorTable) (entries : List OperatorEntry) : OperatorTable :=
  entries.foldl (fun table entry => table.set entry.op entry.strength) table

end Formula
