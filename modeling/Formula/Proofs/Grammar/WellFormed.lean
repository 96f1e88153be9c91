import Formula.Proofs.Binary64.ReadBack
import Formula.Proofs.Grammar.Acceptance
import Formula.Proofs.Grammar.Suffix
import Formula.Proofs.Token.Spelling

/-! # What a source can hold

Whatever is read has its names and numbers from the tokens, and its operators from the table.
Its names are therefore spelled like names, its numbers have a value and no sign, and the table
knows its operators.
-/

namespace Formula

open OperatorTable

namespace Binary64

variable {n : Nat}

theorem isNaN_ofMagnitude (h : n ≤ infinite) : (ofMagnitude n).isNaN = false := by
  rw [isNaN, magnitude_ofMagnitude h]
  exact decide_eq_false (Nat.not_lt.mpr h)

structure Unsigned (x : Binary64) : Prop where
  isNaN : x.isNaN = false
  isNegative : x.isNegative = false

theorem unsigned_ofMagnitude (h : n ≤ infinite) : (ofMagnitude n).Unsigned :=
  ⟨isNaN_ofMagnitude h, isNegative_ofMagnitude h⟩

end Binary64

/-- A run of digits and points has a value without a sign, even beyond the largest number. -/
theorem Numeral.unsigned_value (run : List Char) : (value run).Unsigned := by
  unfold value
  split
  next d _ => exact Binary64.unsigned_ofMagnitude (Binary64.magnitudeOfDecimal_le d)
  · exact Binary64.unsigned_ofMagnitude (Nat.zero_le _)

structure Token.WellFormed (token : Token) : Prop where
  named : token.Named
  unsigned (value : Binary64) : token = .number value → value.Unsigned

theorem Cursor.unsigned_readToken (cursor : Cursor) (c : Char) {value : Binary64}
    (h : (cursor.readToken c).1 = .number value) : value.Unsigned := by
  unfold readToken at h
  split at h
  · unfold Token.ofWord at h
    grind
  · split at h
    · obtain rfl := Token.number.inj h
      exact Numeral.unsigned_value _
    · cases h

theorem Cursor.wellFormed_tokens (cursor : Cursor) : ∀ token ∈ cursor.tokens, token.WellFormed :=
  forall_mem_tokens cursor fun _ c ahead => ⟨named_readToken ahead, fun _ => unsigned_readToken _ c⟩

namespace Expr

/-- An expression that a source can hold, where the operators are those of the table. -/
inductive WellFormed (table : OperatorTable) : Expr → Prop where
  | number {value : Binary64} : value.Unsigned → WellFormed table (.number value)
  | reference {name : String} : IsName name → WellFormed table (.reference name)
  | binary {op : Char} {lhs rhs : Expr} : isAscii op = true → 0 < table.strength op →
    WellFormed table lhs → WellFormed table rhs → WellFormed table (.binary op lhs rhs)
  | call {callee : String} {args : List Expr} : IsName callee →
    (∀ arg ∈ args, WellFormed table arg) → WellFormed table (.call callee args)

theorem mem_listCalls {args : List Expr} {call : String × Nat} :
    call ∈ listCalls args ↔ ∃ arg ∈ args, call ∈ arg.calls := by
  induction args with
  | nil => simp [listCalls]
  | cons arg rest ih => simp [listCalls, ih]

variable {table : OperatorTable}

theorem WellFormed.isName_of_mem_calls {e : Expr} (h : e.WellFormed table) :
    ∀ call ∈ e.calls, IsName call.1 := by
  induction h with
  | number | reference => simp [calls]
  | binary _ _ _ _ ihl ihr =>
    intro call mem
    rcases List.mem_append.mp mem with left | right
    · exact ihl call left
    · exact ihr call right
  | call callee _ ih =>
    intro call mem
    rcases List.mem_append.mp mem with inner | outer
    · obtain ⟨arg, among, made⟩ := mem_listCalls.mp inner
      exact ih arg among call made
    · rwa [List.mem_singleton.mp outer]

end Expr

def Phrase.WellFormed (table : OperatorTable) : Phrase → Prop
  | primary e | expression e => e.WellFormed table
  | operations ops => ∀ o ∈ ops, table.isOperator o.1 = true ∧ o.2.WellFormed table
  | arguments args => ∀ arg ∈ args, arg.WellFormed table

namespace OperatorTable

variable {table : OperatorTable} {tokens : List Token} {next : Option Token}

theorem isAscii_of_isOperator {op : Char} (h : table.isOperator op = true) :
    isAscii op = true := by
  by_cases ascii : isAscii op = true
  · exact ascii
  · have none : table.strength op = notAnOperator := if_neg ascii
    rw [isOperator_iff, none] at h
    exact absurd h (by decide)

theorem Folds.wellFormed {first e : Expr} {ops : List (Char × Expr)} (h : table.Folds first ops e)
    (hf : first.WellFormed table) (ho : (Phrase.operations ops).WellFormed table) :
    e.WellFormed table := by
  induction h with
  | operand => exact hf
  | @root first operand lhs rhs op before after _ _ _ _ ihl ihr =>
    obtain ⟨is, operand⟩ := ho (op, operand) (by simp)
    exact .binary (isAscii_of_isOperator is) (isOperator_iff.mp is)
      (ihl hf fun o mem => ho o (by simp [mem])) (ihr operand fun o mem => ho o (by simp [mem]))

theorem Derives.wellFormed {phrase : Phrase} (h : table.Derives phrase tokens next)
    (ht : ∀ token ∈ tokens, token.WellFormed) : phrase.WellFormed table := by
  induction h with
  | number value => exact .number ((ht (.number value) (by simp)).unsigned value rfl)
  | reference name => exact .reference ((ht (.identifier name) (by simp)).named name rfl)
  | callEmpty callee => exact .call ((ht (.identifier callee) (by simp)).named callee rfl) (by simp)
  | call callee _ _ ih =>
    have name := (ht (.identifier callee) (by simp)).named callee rfl
    exact .call name (ih fun token mem => ht token (by simp [mem]))
  | parenthesized _ _ ih => exact ih fun token mem => ht token (by simp [mem])
  | noOperation => exact fun _ mem => nomatch mem
  | operation is _ _ ih ih' =>
    have operand := ih fun token mem => ht token (by simp [mem])
    have others := ih' fun token mem => ht token (by simp [mem])
    exact List.forall_mem_cons.mpr ⟨⟨is, operand⟩, others⟩
  | expression _ _ _ folds ih ih' =>
    exact folds.wellFormed (ih fun token mem => ht token (by simp [mem]))
      (ih' fun token mem => ht token (by simp [mem]))
  | lastArgument _ ih => exact List.forall_mem_singleton.mpr (ih ht)
  | argument _ _ ih ih' =>
    have first := ih fun token mem => ht token (by simp [mem])
    have others := ih' fun token mem => ht token (by simp [mem])
    exact List.forall_mem_cons.mpr ⟨first, others⟩

end OperatorTable

/--
A construct that a source can hold. The name of the function around an expression is none of its
names: it is not taken from the source.
-/
inductive Construct.WellFormed (table : OperatorTable) : Construct → Prop where
  | external {p : Prototype} : IsName p.name → (∀ arg ∈ p.args, IsName arg) →
    WellFormed table (.external p)
  | definition {p : Prototype} {body : Expr} : IsName p.name → (∀ arg ∈ p.args, IsName arg) →
    body.WellFormed table → WellFormed table (.definition ⟨p, body⟩)
  | expression {e : Expr} : e.WellFormed table → WellFormed table (.expression e)

def Construct.calls : Construct → List (String × Nat)
  | external _ => []
  | definition d => d.body.calls
  | expression e => e.calls

variable {table : OperatorTable} {tokens : List Token}

theorem Prototype.isAnonymous_of_isName {p : Prototype} (h : IsName p.name) :
    p.isAnonymous = false := by
  simpa [isAnonymous] using h.ne_anonymousName

theorem Construct.WellFormed.ne_anonymousName_of_mem_calls {c : Construct}
    (h : c.WellFormed table) : ∀ call ∈ c.calls, call.1 ≠ Prototype.anonymousName := by
  cases h with
  | external => exact fun _ mem => nomatch mem
  | definition _ _ body =>
    exact fun call mem => (body.isName_of_mem_calls call mem).ne_anonymousName
  | expression e => exact fun call mem => (e.isName_of_mem_calls call mem).ne_anonymousName

theorem Prototype.isName_of_tokens {p : Prototype} (ht : ∀ token ∈ p.tokens, token.WellFormed) :
    IsName p.name ∧ ∀ arg ∈ p.args, IsName arg := by
  constructor
  · exact (ht (.identifier p.name) (by simp [tokens])).named _ rfl
  · intro arg mem
    exact (ht (.identifier arg) (by simp [tokens, mem])).named _ rfl

theorem Construct.Derives.wellFormed {c : Construct} {next : Option Token}
    (h : c.Derives table tokens next) (ht : ∀ token ∈ tokens, token.WellFormed) :
    c.WellFormed table := by
  cases h with
  | external p =>
    obtain ⟨name, args⟩ := p.isName_of_tokens fun token mem => ht token (by simp [mem])
    exact .external name args
  | definition p derived =>
    obtain ⟨name, args⟩ := p.isName_of_tokens fun token mem => ht token (by simp [mem])
    have body := derived.wellFormed fun token mem => ht token (by simp [mem])
    exact .definition name args body
  | expression derived => exact .expression (derived.wellFormed ht)

theorem OperatorTable.Program.wellFormed {constructs : List Construct}
    (h : table.Program constructs tokens) (ht : ∀ token ∈ tokens, token.WellFormed) :
    ∀ c ∈ constructs, c.WellFormed table := by
  induction h with
  | nil => exact fun _ mem => nomatch mem
  | separator _ ih => exact ih fun token mem => ht token (by simp [mem])
  | construct derived _ ih =>
    have first := derived.wellFormed fun token mem => ht token (by simp [mem])
    exact List.forall_mem_cons.mpr ⟨first, ih fun token mem => ht token (by simp [mem])⟩

theorem Item.wellFormed_of_mem_all {c : Construct} (ht : ∀ token ∈ tokens, token.WellFormed)
    (h : .construct c ∈ all table tokens) : c.WellFormed table := by
  fun_induction all table tokens with
  | case1 => cases h
  | case2 tokens _ ih =>
    rcases List.mem_cons.mp h with first | later
    · obtain ⟨rest, parsed⟩ := parse_of_next first.symm
      obtain ⟨taken, rfl, derived⟩ := Construct.parse_eq_ok_iff.mp parsed
      exact derived.wellFormed fun token mem => ht token (List.mem_append_left rest mem)
    · exact ih (fun token mem => ht token ((next_suffix table tokens).subset mem)) later

end Formula
