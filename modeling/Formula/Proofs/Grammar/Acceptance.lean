import Formula.Proofs.Grammar.Completeness

/-! # Accepted programs

Reading a program succeeds just on the token sequences of the grammar. It takes all
tokens, and gives the only list of constructs that the grammar has for them.
-/

namespace Formula

variable {table : OperatorTable}

theorem OperatorTable.Derives.head?_ne_semicolon {e : Expr} {tokens : List Token}
    {next : Option Token} (h : table.Derives (.expression e) tokens next) :
    tokens.head? ≠ some (.symbol ';') := by
  cases h with
  | expression primary => cases primary <;> simp

/-- A semicolon opens no construct, even where it is an operator. -/
theorem Construct.Derives.head?_ne_semicolon {c : Construct} {tokens : List Token}
    {next : Option Token} (h : c.Derives table tokens next) :
    tokens.head? ≠ some (.symbol ';') := by
  cases h with
  | external | definition => simp
  | expression derived => exact derived.head?_ne_semicolon

theorem Construct.Derives.ne_nil {c : Construct} {tokens : List Token} {next : Option Token}
    (h : c.Derives table tokens next) : tokens ≠ [] := by
  rintro rfl
  have read : parse table next.toList = .ok c next.toList :=
    parse_eq_ok_iff.mpr ⟨[], rfl, by simpa using h⟩
  exact Nat.lt_irrefl _ (length_parse_lt read)

theorem parseProgram_nil : parseProgram table [] = .ok [] [] := by
  rw [parseProgram, if_pos rfl]

theorem parseProgram_semicolon (rest : List Token) :
    parseProgram table (.symbol ';' :: rest) = parseProgram table rest := by
  rw [parseProgram, if_neg (List.cons_ne_nil _ _)]
  split
  next after => rw [Token.after?_symbol] at after; rw [Option.some.inj after]
  next none => simp at none

theorem parseProgram_construct {tokens : List Token} (nonempty : tokens ≠ [])
    (h : tokens.head? ≠ some (.symbol ';')) :
    parseProgram table tokens =
      (Construct.parse table tokens).andThen fun c rest =>
        (parseProgram table rest).map (c :: ·) := by
  rw [parseProgram, if_neg nonempty]
  split
  next rest after => exact absurd after (by rw [Token.after?_eq_none_iff.mpr h]; simp)
  · split <;> simp_all

theorem parseProgram_of_parse {tokens rest : List Token} {c : Construct}
    (h : Construct.parse table tokens = .ok c rest) :
    parseProgram table tokens = (parseProgram table rest).map (c :: ·) := by
  obtain ⟨taken, rfl, derived⟩ := Construct.parse_eq_ok_iff.mp h
  have head : (taken ++ rest).head? ≠ some (.symbol ';') := by
    obtain ⟨t, more, rfl⟩ := List.exists_cons_of_ne_nil derived.ne_nil
    exact derived.head?_ne_semicolon
  rw [parseProgram_construct (by simp [derived.ne_nil]) head, h, Outcome.andThen_ok]

theorem program_of_parseProgram {tokens left : List Token} {constructs : List Construct}
    (h : parseProgram table tokens = .ok constructs left) :
    left = [] ∧ table.Program constructs tokens := by
  fun_induction parseProgram table tokens generalizing constructs with
  | case1 =>
    obtain ⟨rfl, rfl⟩ := Outcome.ok.inj h
    exact ⟨rfl, .nil⟩
  | case2 tokens _ rest after ih =>
    obtain ⟨ended, program⟩ := ih h
    rw [Token.after?_eq_some.mp after]
    exact ⟨ended, .separator program⟩
  | case3 tokens _ after c rest parsed ih =>
    obtain ⟨more, hm, rfl⟩ := Outcome.map_eq_ok.mp h
    obtain ⟨ended, program⟩ := ih hm
    obtain ⟨taken, rfl, derived⟩ := Construct.parse_eq_ok_iff.mp parsed
    exact ⟨ended, .construct derived program⟩
  | case4 => cases h

theorem parseProgram_of_program {tokens : List Token} {constructs : List Construct}
    (h : table.Program constructs tokens) : parseProgram table tokens = .ok constructs [] := by
  induction h with
  | nil => exact parseProgram_nil
  | separator _ ih => rw [parseProgram_semicolon, ih]
  | @construct c constructs tokens more derived _ ih =>
    rw [parseProgram_of_parse (Construct.parse_eq_ok_iff.mpr ⟨tokens, rfl, derived⟩), ih,
      Outcome.map_ok]

theorem parseProgram_eq_ok_iff {tokens left : List Token} {constructs : List Construct} :
    parseProgram table tokens = .ok constructs left ↔
      left = [] ∧ table.Program constructs tokens := by
  constructor
  · exact program_of_parseProgram
  · rintro ⟨rfl, program⟩
    exact parseProgram_of_program program

/--
Reading accepts the programs of the grammar and no others, whichever characters are operators. The
keywords, names and numbers of the constructs are those among the tokens, in their order, and no
tokens form two programs.
-/
theorem parseProgram_accepts (table : OperatorTable) (tokens : List Token) :
    (∀ constructs left, parseProgram table tokens = .ok constructs left ↔
      left = [] ∧ table.Program constructs tokens) ∧
    (∀ constructs, table.Program constructs tokens →
      constructs.flatMap Construct.words = tokens.filter Token.isWord) ∧
    ∀ constructs constructs', table.Program constructs tokens →
      table.Program constructs' tokens → constructs = constructs' := by
  refine ⟨fun _ _ => parseProgram_eq_ok_iff, fun _ program => program.words_eq, ?_⟩
  intro constructs constructs' program program'
  have same := (parseProgram_of_program program).symm.trans (parseProgram_of_program program')
  exact (Outcome.ok.inj same).1

/-- A semicolon that is an operator separates nothing inside an argument. -/
theorem parseProgram_accepts_semicolons :
    (OperatorTable.standard.set ';' 5).Program
      [.definition ⟨⟨"f", ["x"]⟩, .binary '<'
        (.call "g" [.reference "x", .binary ';' (.reference "y")
          (.binary '*' (.reference "z") (.reference "x"))])
        (.binary '-' (.reference "x") (.reference "y"))⟩,
      .expression (.call "f" [.reference "a"])]
      (Token.ofText ";def f(x) g(x, y; z * x) < (x - y) f(a)") :=
  (((parseProgram_accepts _ _).1 _ []).mp (by decide +kernel)).2

end Formula
