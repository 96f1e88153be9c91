import Formula.Operator.Table
import Formula.Proofs.Lookup
import Formula.Proofs.Operator.Strength
import Mathlib.Data.List.Induction
import Mathlib.Data.List.Nodup

/-! # Tables and their last entries

What is stored for an operator is decided by its last entry, and by the base table where it has
none. A table is sorted, so it is determined by what is stored for each character; the order of
entries for different operators leaves no trace, and of ASCII operators nothing is stored that their
strengths do not show.
-/

namespace Formula

namespace OperatorEntry

variable {op : Char} {entries entries' : List OperatorEntry}

/-- The strength in the last entry for an operator. -/
def last? (op : Char) (entries : List OperatorEntry) : Option Int32 :=
  (entries.filter (·.op = op)).getLast?.map (·.strength)

theorem last?_concat (entries : List OperatorEntry) (entry : OperatorEntry) (op : Char) :
    last? op (entries ++ [entry]) =
      if entry.op = op then some entry.strength else last? op entries := by
  unfold last?
  rw [List.filter_append]
  split
  next same => simp [same]
  next ne => simp [ne]

/-- Each operator has the same entries in the same order. -/
def SameOrder (entries entries' : List OperatorEntry) : Prop :=
  ∀ op, entries.filter (·.op = op) = entries'.filter (·.op = op)

theorem SameOrder.last?_eq (h : SameOrder entries entries') (op : Char) :
    last? op entries = last? op entries' := by
  rw [last?, h op, last?]

end OperatorEntry

namespace OperatorTable

open OperatorEntry

variable {table other : OperatorTable} {op c : Char} {n : Int32}

theorem lookup_insertSorted (op : Char) (n : Int32) (entries : List (Char × Int32)) (c : Char) :
    (insertSorted op n entries).lookup c = if c = op then some n else entries.lookup c := by
  by_cases same : c = op
  · subst same
    rw [if_pos rfl]
    induction entries with
    | nil => exact List.lookup_cons_self
    | cons head rest ih =>
      unfold insertSorted
      split
      · exact List.lookup_cons_self
      · split
        · exact List.lookup_cons_self
        next ne => rw [List.lookup_cons, beq_eq_false_iff_ne.mpr ne, ih]
  · have distinct : (c == op) = false := beq_eq_false_iff_ne.mpr same
    rw [if_neg same]
    induction entries with
    | nil => rw [insertSorted, List.lookup_cons, distinct]
    | cons head rest ih =>
      unfold insertSorted
      split
      · rw [List.lookup_cons, distinct]
      · split
        next eq =>
          subst eq
          rw [List.lookup_cons, distinct, List.lookup_cons, distinct]
        · rw [List.lookup_cons, ih, List.lookup_cons]

def stored (n : Int32) : Option Int32 := if 0 < n then some n else none

theorem lookup_set (table : OperatorTable) (op : Char) (n : Int32) (c : Char) :
    (table.set op n).entries.lookup c = if c = op then stored n else table.entries.lookup c := by
  unfold set stored
  split
  · exact lookup_insertSorted op n table.entries c
  · split
    next same =>
      subst same
      exact lookup_filter_self c table.entries
    next ne => exact lookup_filter_of_ne ne table.entries

theorem extend_append (table : OperatorTable) (entries entries' : List OperatorEntry) :
    table.extend (entries ++ entries') = (table.extend entries).extend entries' :=
  List.foldl_append

/-- The last entry for a character decides what is stored, else the base table does. -/
theorem lookup_extend (table : OperatorTable) (entries : List OperatorEntry) (c : Char) :
    (table.extend entries).entries.lookup c =
      (last? c entries).elim (table.entries.lookup c) stored := by
  induction entries using List.reverseRecOn with
  | nil => rfl
  | append_singleton entries entry ih =>
    have step : table.extend (entries ++ [entry]) =
        (table.extend entries).set entry.op entry.strength := table.extend_append entries [entry]
    rw [step, lookup_set, last?_concat]
    by_cases same : entry.op = c
    · rw [if_pos same.symm, if_pos same, Option.elim_some]
    · rw [if_neg (Ne.symm same), if_neg same, ih]

theorem keys_nodup (table : OperatorTable) : (table.entries.map (·.1)).Nodup :=
  List.pairwise_map.mpr (table.sorted.imp Char.ne_of_lt)

theorem mem_entries_iff : (c, n) ∈ table.entries ↔ table.entries.lookup c = some n :=
  mem_iff_lookup table.keys_nodup

theorem ext_lookup (h : ∀ c, table.entries.lookup c = other.entries.lookup c) : table = other := by
  have alike (entry : Char × Int32) : entry ∈ table.entries ↔ entry ∈ other.entries := by
    rw [mem_entries_iff, mem_entries_iff, h]
  have perm : table.entries.Perm other.entries :=
    (List.perm_ext_iff_of_nodup (.of_map _ table.keys_nodup) (.of_map _ other.keys_nodup)).mpr alike
  have same : table.entries = other.entries :=
    perm.eq_of_pairwise (fun _ _ _ _ lt gt => absurd gt (Char.lt_asymm lt))
      table.sorted other.sorted
  rcases table
  rcases other
  cases same
  rfl

theorem strength_of_not_isAscii (h : isAscii c = false) : table.strength c = notAnOperator := by
  rw [strength, if_neg (Bool.eq_false_iff.mp h)]

theorem strength_of_isAscii (h : isAscii c = true) :
    table.strength c = (table.entries.lookup c).getD notAnOperator := if_pos h

theorem strength_extend_of_last? {entries : List OperatorEntry} (ascii : isAscii c = true)
    (last : last? c entries = some n) :
    (table.extend entries).strength c = (stored n).getD notAnOperator := by
  rw [strength_of_isAscii ascii, lookup_extend, last, Option.elim_some]

theorem strength_extend_of_no_entry {entries : List OperatorEntry} (none : last? c entries = none) :
    (table.extend entries).strength c = table.strength c := by
  unfold strength
  rw [lookup_extend, none, Option.elim_none]

theorem mem_extend_iff {entries : List OperatorEntry} :
    (c, n) ∈ (table.extend entries).entries ↔
      (last? c entries = some n ∧ 0 < n) ∨ (last? c entries = none ∧ (c, n) ∈ table.entries) := by
  rw [mem_entries_iff, lookup_extend]
  cases last? c entries with
  | none => simp [mem_entries_iff]
  | some m =>
    simp only [Option.elim_some, stored, Option.some.injEq, reduceCtorEq, false_and, or_false]
    split
    next positive =>
      exact ⟨fun h => by cases h; exact ⟨rfl, positive⟩, fun h => by rw [h.1]⟩
    next not_positive =>
      exact ⟨nofun, fun h => absurd (h.1 ▸ h.2) not_positive⟩

/-- Stored strengths are positive, so that they differ from the strength of no operator. -/
theorem lookup_of_strength_eq (ascii : isAscii c = true)
    (same : table.strength c = other.strength c) :
    table.entries.lookup c = other.entries.lookup c := by
  have positive (t : OperatorTable) {n : Int32} (found : t.entries.lookup c = some n) :
      n ≠ notAnOperator := by
    rintro rfl
    have impossible : 0 < notAnOperator := t.positive _ (mem_entries_iff.mpr found)
    exact absurd impossible (by decide)
  rw [strength_of_isAscii ascii, strength_of_isAscii ascii] at same
  cases left : table.entries.lookup c with
  | none =>
    cases right : other.entries.lookup c with
    | none => rfl
    | some n =>
      rw [left, right] at same
      exact absurd same.symm (positive other right)
  | some m =>
    cases right : other.entries.lookup c with
    | none =>
      rw [left, right] at same
      exact absurd same (positive table left)
    | some n =>
      rw [left, right] at same
      exact congrArg some same

def AsciiOnly (table : OperatorTable) : Prop := ∀ entry ∈ table.entries, isAscii entry.1 = true

theorem AsciiOnly.lookup_eq_none (h : table.AsciiOnly) (foreign : isAscii c = false) :
    table.entries.lookup c = none := by
  refine Option.eq_none_iff_forall_not_mem.mpr fun n found => ?_
  have := h (c, n) (mem_entries_iff.mpr found)
  rw [foreign] at this
  cases this

theorem AsciiOnly.ext_strength (h : table.AsciiOnly) (h' : other.AsciiOnly)
    (same : ∀ c, table.strength c = other.strength c) : table = other := by
  refine ext_lookup fun c => ?_
  cases ascii : isAscii c with
  | true => exact lookup_of_strength_eq ascii (same c)
  | false => rw [h.lookup_eq_none ascii, h'.lookup_eq_none ascii]

theorem AsciiOnly.extend {entries : List OperatorEntry} (h : table.AsciiOnly)
    (ascii : ∀ entry ∈ entries, isAscii entry.op = true) : (table.extend entries).AsciiOnly := by
  rintro ⟨c, n⟩ mem
  rw [mem_entries_iff, lookup_extend] at mem
  cases last : last? c entries with
  | none =>
    rw [last, Option.elim_none] at mem
    exact h (c, n) (mem_entries_iff.mpr mem)
  | some m =>
    obtain ⟨entry, found, -⟩ := Option.map_eq_some_iff.mp last
    obtain ⟨among, same⟩ := List.mem_filter.mp (List.mem_of_getLast? found)
    rw [← of_decide_eq_true same]
    exact ascii entry among

theorem extend_congr (table : OperatorTable) {entries entries' : List OperatorEntry}
    (h : SameOrder entries entries') : table.extend entries = table.extend entries' := by
  refine ext_lookup fun c => ?_
  rw [lookup_extend, lookup_extend, h.last?_eq]

theorem asciiOnly_empty : empty.AsciiOnly := nofun

theorem asciiOnly_standard : standard.AsciiOnly := by
  unfold AsciiOnly
  decide

inductive Change where
  | set (op : Char) (strength : Int32)
  | extend (entries : List OperatorEntry)

namespace Change

def entries : Change → List OperatorEntry
  | set op strength => [⟨op, strength⟩]
  | extend entries => entries

def apply (table : OperatorTable) : Change → OperatorTable
  | set op strength => table.set op strength
  | extend entries => table.extend entries

theorem apply_eq (table : OperatorTable) (change : Change) :
    change.apply table = table.extend change.entries := by
  cases change <;> rfl

end Change

def after (table : OperatorTable) (changes : List Change) : OperatorTable :=
  changes.foldl Change.apply table

theorem after_eq_extend (table : OperatorTable) (changes : List Change) :
    table.after changes = table.extend (changes.flatMap Change.entries) := by
  induction changes generalizing table with
  | nil => rfl
  | cons change rest ih =>
    rw [List.flatMap_cons, extend_append, ← ih, ← Change.apply_eq]
    rfl

theorem asciiOnly_after {changes : List Change} (base : table = standard ∨ table = empty)
    (ascii : ∀ entry ∈ changes.flatMap Change.entries, isAscii entry.op = true) :
    (table.after changes).AsciiOnly := by
  rw [after_eq_extend]
  rcases base with rfl | rfl
  · exact asciiOnly_standard.extend ascii
  · exact asciiOnly_empty.extend ascii

end OperatorTable

end Formula
