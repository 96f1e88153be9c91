import Formula.Proofs.Grammar.Acceptance
import Formula.Proofs.Token.Lexeme

/-! # Reading looks one token ahead

Reading a part of an expression decides on the tokens that it takes and on the next one.
A part that was read stays the same if a closing parenthesis or the end of input follows
instead, and what was taken before an error can be completed to a part that was not.
-/

namespace Formula

/-- A token that may stand behind any phrase; none stands there at the end of input. -/
def OperatorTable.Closes (table : OperatorTable) (next : Option Token) : Prop :=
  ¬ table.isOperator ')' = true ∧ (next = none ∨ next = some (.symbol ')'))

namespace OperatorTable

variable {table : OperatorTable} {next : Option Token}

theorem Closes.ne_open (h : table.Closes next) : next ≠ some (.symbol '(') := by
  obtain ⟨-, rfl | rfl⟩ := h <;> simp

theorem Closes.parenthesis (h : table.Closes next) : table.Closes (some (.symbol ')')) :=
  ⟨h.1, .inr rfl⟩

theorem Closes.nextStrength_eq {tokens : List Token} (h : table.Closes tokens.head?) :
    table.nextStrength tokens = notAnOperator := by
  refine nextStrength_of_not_continues ?_
  rintro ⟨op, head, is⟩
  obtain ⟨free, ended | closed⟩ := h
  · simp [ended] at head
  · rw [closed] at head
    obtain rfl := Token.symbol.inj (Option.some.inj head)
    exact free is

theorem Closes.nextStrength_lt {tokens : List Token} {bound : Int32} (h : table.Closes tokens.head?)
    (hb : 0 ≤ bound) : table.nextStrength tokens < bound := by
  rw [h.nextStrength_eq]
  exact Int32.lt_of_lt_of_le (by decide) hb

end OperatorTable

def Token.Spelled (token : Token) : Prop := ∃ lexeme, Lexeme lexeme token

theorem Token.spelled_close : (symbol ')').Spelled := ⟨[')'], .symbol (by decide)⟩

theorem Token.spelled_open : (symbol '(').Spelled := ⟨['('], .symbol (by decide)⟩

/-- A number that completes an expression. -/
def Token.filler : Token := number (Numeral.value ['0'])

theorem Token.spelled_filler : filler.Spelled :=
  ⟨['0'], .numeral (by simp) (List.all_eq_true.mp rfl)⟩

def Token.fillerName : String := "f"

theorem Token.spelled_fillerName : (identifier fillerName).Spelled :=
  ⟨['f'], .word (by decide) (by simp)⟩

namespace Parsed

variable {α β : Type} {table : OperatorTable} {read : List Token → Parsed α}

/-- The tokens can be completed to a phrase, which ends wherever a phrase may end. -/
def Completes (table : OperatorTable) (read : List Token → Parsed α) (taken : List Token) : Prop :=
  ∃ more value, (∀ token ∈ more, token.Spelled) ∧
    ∀ rest, table.Closes rest.head? → read (taken ++ (more ++ rest)) = .ok value rest

def Closable (table : OperatorTable) (read : List Token → Parsed α) : Prop :=
  ∃ more value, (∀ token ∈ more, token.Spelled) ∧ ∀ rest, table.Closes rest.head? →
    table.Closes (more ++ rest).head? ∧ read (more ++ rest) = .ok value rest

/--
Reading decides on the tokens it takes and the next one. After a success the next token may also be
replaced by one that closes; an error is about the next token, and what was taken can be completed.
-/
inductive Settles (table : OperatorTable) (read : List Token → Parsed α) :
    List Token → Prop where
  | ok {taken rest : List Token} (value : α) :
    (∀ other, other.head? = rest.head? ∨ table.Closes other.head? →
      read (taken ++ other) = .ok value other) →
    Settles table read (taken ++ rest)
  | error {taken rest : List Token} (cause : SyntaxError) : cause.found = rest.head? →
    (∀ other, other.head? = rest.head? → read (taken ++ other) = .error cause other) →
    Completes table read taken → Settles table read (taken ++ rest)

namespace Settles

variable {tokens : List Token}

theorem stop (value : α) (h : ∀ other, other.head? = tokens.head? ∨ table.Closes other.head? →
    read other = .ok value other) : Settles table read tokens := by
  have settles : Settles table read ([] ++ tokens) := .ok value h
  exact settles

theorem refuse (cause : SyntaxError) (found : cause.found = tokens.head?)
    (h : ∀ other, other.head? = tokens.head? → read other = .error cause other)
    (completes : Completes table read []) : Settles table read tokens := by
  have settles : Settles table read ([] ++ tokens) := .error cause found h completes
  exact settles

theorem prepend (front : List Token)
    (h : Settles table (fun tokens => read (front ++ tokens)) tokens) :
    Settles table read (front ++ tokens) := by
  cases h with
  | ok value repeats =>
    rw [← List.append_assoc]
    refine .ok value fun other ho => ?_
    rw [List.append_assoc, repeats other ho]
  | error cause found repeats completes =>
    obtain ⟨more, value, spelled, completed⟩ := completes
    rw [← List.append_assoc]
    refine .error cause found (fun other ho => ?_) ⟨more, value, spelled, fun rest hr => ?_⟩
    · rw [List.append_assoc, repeats other ho]
    · rw [List.append_assoc]
      exact completed rest hr

theorem map (h : Settles table read tokens) (f : α → β) :
    Settles table (fun tokens => (read tokens).map f) tokens := by
  cases h with
  | ok value repeats =>
    refine .ok (f value) fun other ho => ?_
    rw [repeats other ho, Outcome.map_ok]
  | error cause found repeats completes =>
    obtain ⟨more, value, spelled, completed⟩ := completes
    refine .error cause found (fun other ho => ?_) ⟨more, f value, spelled, fun rest hr => ?_⟩
    · rw [repeats other ho, Outcome.map_error]
    · exact Outcome.map_eq_ok.mpr ⟨value, completed rest hr, rfl⟩

theorem head?_congr {taken other rest : List Token} (h : other.head? = rest.head?) :
    (taken ++ other).head? = (taken ++ rest).head? := by
  rw [List.head?_append, List.head?_append, h]

/--
Where the second phrase fails at its first token, the first one may have ended at a wrong token.
Whatever completes the second phrase then closes the first.
-/
theorem andThen {next : α → List Token → Parsed β} (first : Settles table read tokens)
    (second : ∀ value left, read tokens = .ok value left → Settles table (next value) left)
    (closable : ∀ value, Closable table (next value)) :
    Settles table (fun tokens => (read tokens).andThen next) tokens := by
  cases first with
  | @ok taken left value repeats =>
    have onward := second value left (repeats left (.inl rfl))
    cases onward with
    | @ok taken' rest value' repeats' =>
      rw [← List.append_assoc]
      refine .ok value' fun other ho => ?_
      have follows : (taken' ++ other).head? = (taken' ++ rest).head? ∨
          table.Closes (taken' ++ other).head? := by
        cases taken' with
        | nil => exact ho
        | cons => exact .inl rfl
      rw [List.append_assoc, repeats _ follows, Outcome.andThen_ok, repeats' other ho]
    | @error taken' rest cause found repeats' completes =>
      rw [← List.append_assoc]
      refine .error cause found (fun other ho => ?_) ?_
      · rw [List.append_assoc, repeats _ (.inl (head?_congr ho)), Outcome.andThen_ok,
          repeats' other ho]
      · cases taken' with
        | nil =>
          obtain ⟨more, value', spelled, closing⟩ := closable value
          refine ⟨more, value', spelled, fun rest hr => ?_⟩
          obtain ⟨closes, completed⟩ := closing rest hr
          refine Outcome.andThen_eq_ok.mpr ⟨value, more ++ rest, ?_, completed⟩
          rw [List.append_nil]
          exact repeats _ (.inr closes)
        | cons t taken' =>
          obtain ⟨more, value', spelled, completed⟩ := completes
          refine ⟨more, value', spelled, fun rest hr => ?_⟩
          refine Outcome.andThen_eq_ok.mpr ⟨value, _, ?_, completed rest hr⟩
          rw [List.append_assoc]
          exact repeats _ (.inl rfl)
  | @error taken rest cause found repeats completes =>
    obtain ⟨more, value, spelled, completed⟩ := completes
    obtain ⟨more', value', spelled', closing⟩ := closable value
    refine .error cause found (fun other ho => ?_) ⟨more ++ more', value', ?_, fun rest hr => ?_⟩
    · rw [repeats other ho, Outcome.andThen_error]
    · intro token ht
      rcases List.mem_append.mp ht with ht | ht
      · exact spelled token ht
      · exact spelled' token ht
    · obtain ⟨closes, done⟩ := closing rest hr
      refine Outcome.andThen_eq_ok.mpr ⟨value, more' ++ rest, ?_, done⟩
      rw [List.append_assoc more]
      exact completed _ closes

end Settles

end Parsed

namespace Expr

open Parsed

variable {table : OperatorTable} {tokens : List Token}

theorem completes_primary : Completes table (parsePrimary table) [] :=
  ⟨[.filler], _, by simpa using Token.spelled_filler,
    fun rest _ => parsePrimary_number table _ rest⟩

theorem closable_operators {bound : Int32} (hb : 0 ≤ bound) (lhs : Expr) :
    Closable table (parseOperators table bound lhs) :=
  ⟨[], lhs, by simp,
    fun _ hr => ⟨hr, parseOperators_of_nextStrength_lt (hr.nextStrength_lt hb) lhs⟩⟩

theorem parseTighter_of_closes {s : Int32} (hs : 0 ≤ s) (operand : Expr)
    (h : table.Closes tokens.head?) :
    parseTighter table s operand tokens = .ok operand tokens :=
  if_neg (Int32.not_lt.mpr (Int32.le_of_lt (h.nextStrength_lt hs)))

theorem parseTighter_eq {s t : Int32} (h : s < t) (operand : Expr) (tokens : List Token) :
    parseTighter table s operand tokens = parseOperators table (s + 1) operand tokens := by
  unfold parseTighter
  split
  · rfl
  next loose => exact (parseOperators_of_nextStrength_lt (by grind) operand).symm

theorem parseTighter_settles {s : Int32} (hs : 0 ≤ s) (operand : Expr)
    (ho : ∀ bound lhs, 0 ≤ bound → Settles table (parseOperators table bound lhs) tokens) :
    Settles table (parseTighter table s operand) tokens := by
  by_cases tighter : s < table.nextStrength tokens
  · rw [funext (parseTighter_eq tighter operand)]
    exact ho _ _ (by grind)
  · refine .stop operand fun other follows => ?_
    rcases follows with same | closes
    · exact if_neg (by rwa [OperatorTable.nextStrength_congr same])
    · exact parseTighter_of_closes hs operand closes

theorem parseOperators_settles
    (hp : ∀ rest, rest.length < tokens.length → Settles table (parsePrimary table) rest)
    (ho : ∀ rest, rest.length < tokens.length →
      ∀ bound lhs, 0 ≤ bound → Settles table (parseOperators table bound lhs) rest)
    {bound : Int32} (lhs : Expr) (hb : 0 ≤ bound) :
    Settles table (parseOperators table bound lhs) tokens := by
  by_cases stops : table.nextStrength tokens < bound
  · refine .stop lhs fun other follows => parseOperators_of_nextStrength_lt ?_ lhs
    rcases follows with same | closes
    · rwa [OperatorTable.nextStrength_congr same]
    · exact closes.nextStrength_lt hb
  have goes := Int32.not_lt.mp stops
  match tokens with
  | .symbol op :: rest =>
    rw [OperatorTable.nextStrength_symbol] at goes
    have positive := Int32.le_trans hb goes
    refine Settles.prepend [.symbol op] ?_
    simp only [List.singleton_append, parseOperators_of_le goes]
    refine (hp rest (by simp)).andThen (fun operand left hl => ?_) fun operand => ?_
    · have left_lt := length_parsePrimary_lt hl
      refine (parseTighter_settles positive operand (ho left (by grind))).andThen
        (fun rhs left' hl' => ?_) fun rhs => closable_operators hb _
      have left'_le : left'.length ≤ left.length := by
        have le := length_parseTighter_le table (table.strength op) operand left
        rwa [hl'] at le
      exact ho left' (by grind) _ _ hb
    · refine ⟨[], .binary op lhs operand, by simp, fun rest hr => ⟨hr, ?_⟩⟩
      exact Outcome.andThen_eq_ok.mpr ⟨operand, rest, parseTighter_of_closes positive operand hr,
        parseOperators_of_nextStrength_lt (hr.nextStrength_lt hb) _⟩
  | [] | .define :: _ | .external :: _ | .identifier _ :: _ | .number _ :: _ =>
    have negative : (0 : Int32) ≤ OperatorTable.notAnOperator := Int32.le_trans hb goes
    exact absurd negative (by decide)

theorem parse_settles_of (hp : Settles table (parsePrimary table) tokens)
    (ho : ∀ rest, rest.length < tokens.length →
      ∀ bound lhs, 0 ≤ bound → Settles table (parseOperators table bound lhs) rest) :
    Settles table (parse table) tokens := by
  rw [funext (parse_eq table)]
  exact hp.andThen (fun first left hl => ho left (length_parsePrimary_lt hl) _ _ (by decide))
    fun first => closable_operators (by decide) first

theorem spelled_closing : ∀ token ∈ [Token.symbol ')'], token.Spelled := by
  simpa using Token.spelled_close

theorem parseArguments_settles (he : Settles table (parse table) tokens)
    (ha : ∀ rest, rest.length < tokens.length → Settles table (parseArguments table) rest) :
    Settles table (parseArguments table) tokens := by
  rw [funext (parseArguments_eq table)]
  refine he.andThen (fun arg left hl => ?_) fun arg => ?_
  · have left_lt := length_parse_lt hl
    by_cases closed : left.head? = some (.symbol ')')
    · obtain ⟨outer, rfl⟩ := List.head?_eq_some_iff.mp closed
      exact .prepend [.symbol ')'] (.stop [arg] fun other _ => by simp)
    by_cases separated : left.head? = some (.symbol ',')
    · obtain ⟨next, rfl⟩ := List.head?_eq_some_iff.mp separated
      refine Settles.prepend [.symbol ','] ?_
      have unclosed (rest : List Token) : Token.after? ')' (.symbol ',' :: rest) = none :=
        Token.after?_eq_none_iff.mpr (by simp)
      simp only [List.singleton_append, unclosed, Token.after?_symbol]
      exact (ha next (by grind)).map _
    · refine .refuse (.badSeparator left.head?) rfl (fun other ho => ?_)
        ⟨[.symbol ')'], [arg], spelled_closing, fun rest _ => by simp⟩
      rw [← ho] at closed separated ⊢
      rw [Token.after?_eq_none_iff.mpr closed, Token.after?_eq_none_iff.mpr separated]
  · exact ⟨[.symbol ')'], [arg], spelled_closing, fun rest hr => ⟨hr.parenthesis, by simp⟩⟩

theorem parsePrimary_call {name : String} (h : Token.after? ')' tokens = none) :
    parsePrimary table (.identifier name :: .symbol '(' :: tokens) =
      (parseArguments table tokens).map (.call name) := by
  rw [parsePrimary_identifier, Token.after?_symbol]
  simp only [h]

theorem call_settles {name : String} (unclosed : Token.after? ')' tokens = none)
    (ha : Settles table (parseArguments table) tokens) :
    Settles table (parsePrimary table) (.identifier name :: .symbol '(' :: tokens) := by
  refine Settles.prepend [.identifier name, .symbol '('] ?_
  cases ha with
  | ok args repeats =>
    refine .ok (.call name args) fun other ho => ?_
    have read := repeats other ho
    simp [parsePrimary_call (after?_of_parseArguments read), read]
  | error cause found repeats completes =>
    obtain ⟨more, args, spelled, completed⟩ := completes
    refine .error cause found (fun other ho => ?_)
      ⟨more, .call name args, spelled, fun rest hr => ?_⟩
    · rw [Token.after?_eq_none_iff, ← Settles.head?_congr ho, ← Token.after?_eq_none_iff]
        at unclosed
      simp [parsePrimary_call unclosed, repeats other ho]
    · have read := completed rest hr
      simp [parsePrimary_call (after?_of_parseArguments read), read]

theorem parsePrimary_settles
    (he : ∀ rest, rest.length < tokens.length → Settles table (parse table) rest)
    (ha : ∀ rest, rest.length < tokens.length → Settles table (parseArguments table) rest) :
    Settles table (parsePrimary table) tokens := by
  match tokens with
  | [] =>
    refine .refuse (.unexpected none) rfl (fun other ho => ?_) completes_primary
    rw [List.head?_eq_none_iff.mp ho, parsePrimary_nil]
  | .define :: _ =>
    refine .refuse (.unexpected (some .define)) rfl (fun other ho => ?_) completes_primary
    obtain ⟨rest, rfl⟩ := List.head?_eq_some_iff.mp ho
    exact parsePrimary_define table rest
  | .external :: _ =>
    refine .refuse (.unexpected (some .external)) rfl (fun other ho => ?_) completes_primary
    obtain ⟨rest, rfl⟩ := List.head?_eq_some_iff.mp ho
    exact parsePrimary_external table rest
  | .number value :: rest =>
    exact .prepend [.number value] (.stop (.number value) fun other _ =>
      parsePrimary_number table value other)
  | .identifier name :: rest =>
    by_cases opened : rest.head? = some (.symbol '(')
    · obtain ⟨inner, rfl⟩ := List.head?_eq_some_iff.mp opened
      cases closed : Token.after? ')' inner with
      | none => exact call_settles closed (ha inner (by grind))
      | some outer =>
        obtain rfl := Token.after?_eq_some.mp closed
        exact .prepend [.identifier name, .symbol '(', .symbol ')'] (.stop (.call name [])
          fun other _ => by simp [parsePrimary_identifier])
    · refine .prepend [.identifier name] (.stop (.reference name) fun other follows => ?_)
      have plain : other.head? ≠ some (.symbol '(') := by
        rcases follows with same | closes
        · rwa [same]
        · exact closes.ne_open
      rw [List.singleton_append, parsePrimary_identifier, Token.after?_eq_none_iff.mpr plain]
  | .symbol c :: inner =>
    by_cases hc : c = '('
    · subst hc
      refine Settles.prepend [.symbol '('] ?_
      simp only [List.singleton_append, parsePrimary_parenthesis]
      refine (he inner (by simp)).andThen (fun e left _ => ?_) fun e => ?_
      · by_cases closed : left.head? = some (.symbol ')')
        · obtain ⟨outer, rfl⟩ := List.head?_eq_some_iff.mp closed
          exact .prepend [.symbol ')'] (.stop e fun other _ => by simp)
        · refine .refuse (.expected ')' .closeParenthesis left.head?) rfl (fun other ho => ?_)
            ⟨[.symbol ')'], e, spelled_closing, fun rest _ => by simp⟩
          rw [← ho] at closed ⊢
          rw [Token.after?_eq_none_iff.mpr closed]
      · exact ⟨[.symbol ')'], e, spelled_closing, fun rest hr => ⟨hr.parenthesis, by simp⟩⟩
    · refine .refuse (.unexpected (some (.symbol c))) rfl (fun other ho => ?_) completes_primary
      obtain ⟨rest, rfl⟩ := List.head?_eq_some_iff.mp ho
      exact parsePrimary_symbol table hc rest

/-- All ways of reading a part of an expression decide on the tokens they take and the next one. -/
theorem reading_settles (table : OperatorTable) (tokens : List Token) :
    Settles table (parsePrimary table) tokens ∧ Settles table (parseArguments table) tokens ∧
      (∀ bound lhs, 0 ≤ bound → Settles table (parseOperators table bound lhs) tokens) ∧
      Settles table (parse table) tokens := by
  induction hn : tokens.length using Nat.strongRecOn generalizing tokens with
  | ind n ih =>
    subst hn
    have shorter := fun rest (h : rest.length < tokens.length) => ih _ h rest rfl
    have primary := parsePrimary_settles (fun rest h => (shorter rest h).2.2.2)
      fun rest h => (shorter rest h).2.1
    have expression := parse_settles_of primary fun rest h => (shorter rest h).2.2.1
    exact ⟨primary, parseArguments_settles expression fun rest h => (shorter rest h).2.1,
      fun _ lhs hb => parseOperators_settles (fun rest h => (shorter rest h).1)
        (fun rest h => (shorter rest h).2.2.1) lhs hb,
      expression⟩

end Expr

end Formula
