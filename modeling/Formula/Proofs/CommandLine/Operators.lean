import Formula.CommandLine.Arguments
import Formula.Proofs.Operator.Table
import Mathlib.Data.List.Forall2

/-! # The operators of a configuration

A configuration takes the standard operators and the entries of its command line, in order. Each
entry is checked before the words become a configuration, so reading the entries cannot fail then.
What the entries do to the operators is what any changes of a table do: the last entry for a
character decides.
-/

namespace Formula

theorem exists_of_bind_eq_ok {ε α β : Type} {first : Except ε α} {next : α → Except ε β} {b : β}
    (h : (first >>= next) = .ok b) : ∃ a, first = .ok a ∧ next a = .ok b := by
  cases first with
  | error cause => cases h
  | ok a => exact ⟨a, rfl, h⟩

namespace OperatorEntry

variable {text : String} {texts : List String}

def ReadAs (texts : List String) (entries : List OperatorEntry) : Prop :=
  List.Forall₂ (fun text entry => ofText text = .ok entry) texts entries

theorem exists_ofText (h : validate text = .ok ()) : ∃ entry, ofText text = .ok entry := by
  unfold validate at h
  cases read : ofText text with
  | ok entry => exact ⟨entry, rfl⟩
  | error cause => rw [read] at h; cases h

theorem forM_validate (h : texts.forM validate = .ok ()) :
    ∀ text ∈ texts, validate text = .ok () := by
  induction texts with
  | nil => nofun
  | cons first rest ih =>
    obtain ⟨_, valid, others⟩ := exists_of_bind_eq_ok h
    exact List.forall_mem_cons.mpr ⟨valid, ih others⟩

theorem exists_listOfTexts (h : ∀ text ∈ texts, validate text = .ok ()) :
    ∃ entries, listOfTexts texts = .ok entries ∧ ReadAs texts entries := by
  induction texts with
  | nil => exact ⟨[], rfl, .nil⟩
  | cons first rest ih =>
    obtain ⟨valid, others⟩ := List.forall_mem_cons.mp h
    obtain ⟨entry, read⟩ := exists_ofText valid
    obtain ⟨entries, reads, as⟩ := ih others
    refine ⟨entry :: entries, ?_, .cons read as⟩
    unfold listOfTexts at reads ⊢
    rw [List.mapM_cons, read, reads]
    rfl

end OperatorEntry

open OperatorEntry OperatorTable

namespace CommandLine

namespace Words

variable {words : Words}

theorem validate_of_check (h : words.check = .ok ()) :
    ∀ text ∈ words.values .precedence, validate text = .ok () := by
  unfold check at h
  obtain ⟨_, -, h⟩ := exists_of_bind_eq_ok h
  obtain ⟨_, -, h⟩ := exists_of_bind_eq_ok h
  obtain ⟨_, -, h⟩ := exists_of_bind_eq_ok h
  obtain ⟨_, checked, -⟩ := exists_of_bind_eq_ok h
  unfold checkEntries at checked
  refine forM_validate ?_
  cases valid : (words.values .precedence).forM validate with
  | ok => rfl
  | error cause =>
    rw [valid] at checked
    cases checked

theorem exists_toConfig (h : ∀ text ∈ words.values .precedence, validate text = .ok ()) :
    ∃ entries config, ReadAs (words.values .precedence) entries ∧ words.toConfig = .ok config ∧
      config.operators = OperatorTable.standard.extend entries := by
  obtain ⟨entries, reads, as⟩ := exists_listOfTexts h
  rw [toConfig, reads]
  exact ⟨entries, _, as, rfl, rfl⟩

theorem exists_toConfig_of_check (h : words.check = .ok ()) :
    ∃ config, words.toConfig = .ok config := by
  obtain ⟨_, config, -, chosen, -⟩ := exists_toConfig (validate_of_check h)
  exact ⟨config, chosen⟩

end Words

/-- The last entry for a character decides its strength, the base table where there is none, and no
more is stored than what last entries and the base table give. So only the order of entries for the
same operator counts, and ASCII operators with the same strengths make the same table. Words with
valid entries always choose a configuration: its operators are the standard ones, extended by the
entries in order. -/
theorem operators_determined (base : OperatorTable) (changes : List Change) :
    let entries := changes.flatMap Change.entries
    let table := base.after changes
    (∀ c n, isAscii c = true → last? c entries = some n → 0 < n → table.strength c = n) ∧
    (∀ c, isAscii c = false → table.strength c = notAnOperator) ∧
    (∀ c n, last? c entries = some n → n ≤ 0 → table.strength c = notAnOperator) ∧
    (∀ c, last? c entries = none → table.strength c = base.strength c) ∧
    (∀ c n, (c, n) ∈ table.entries ↔
      (last? c entries = some n ∧ 0 < n) ∨ (last? c entries = none ∧ (c, n) ∈ base.entries)) ∧
    (∀ entry ∈ table.entries, 0 < entry.2) ∧
    (∀ changes' : List Change, SameOrder entries (changes'.flatMap Change.entries) →
      table = base.after changes') ∧
    (∀ (base' : OperatorTable) (changes' : List Change),
      (base = standard ∨ base = empty) → (base' = standard ∨ base' = empty) →
      (∀ entry ∈ entries, isAscii entry.op = true) →
      (∀ entry ∈ changes'.flatMap Change.entries, isAscii entry.op = true) →
      (table = base'.after changes' ↔ ∀ c, table.strength c = (base'.after changes').strength c)) ∧
    (∀ words : Words, (∀ text ∈ words.values .precedence, validate text = .ok ()) →
      ∃ entries config, ReadAs (words.values .precedence) entries ∧ words.toConfig = .ok config ∧
        config.operators = standard.extend entries) := by
  intro entries table
  have extended : table = base.extend entries := base.after_eq_extend changes
  refine ⟨?declared, fun c => strength_of_not_isAscii, ?removed, ?untouched, ?stored,
    table.positive, ?reordered, ?equal, fun words => words.exists_toConfig⟩
  case declared =>
    intro c n ascii last positive
    rw [extended, strength_extend_of_last? ascii last, stored, if_pos positive, Option.getD_some]
  case removed =>
    intro c n last nonpositive
    cases ascii : isAscii c with
    | false => exact strength_of_not_isAscii ascii
    | true =>
      have dropped : stored n = none := if_neg (Int32.not_lt.mpr nonpositive)
      rw [extended, strength_extend_of_last? ascii last, dropped, Option.getD_none]
  case untouched =>
    intro c none
    rw [extended, strength_extend_of_no_entry none]
  case stored =>
    intro c n
    rw [extended, mem_extend_iff]
  case reordered =>
    intro changes' same
    rw [extended, after_eq_extend, base.extend_congr same]
  case equal =>
    intro base' changes' origin origin' ascii ascii'
    have only : table.AsciiOnly := asciiOnly_after origin ascii
    have only' : (base'.after changes').AsciiOnly := asciiOnly_after origin' ascii'
    exact ⟨fun same c => by rw [same], only.ext_strength only'⟩

end CommandLine

end Formula
