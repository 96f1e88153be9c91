import Formula.Proofs.Grammar.Settling

/-! # Errors are found at once

An error in a program is about the next token, and only the tokens before it were taken.
These begin a valid program: where the closing parenthesis is no operator, some text goes
on behind them and is accepted.
-/

namespace Formula

open Parsed

variable {table : OperatorTable}

theorem Prototype.parse_error {tokens rest : List Token} {cause : SyntaxError}
    (h : parse tokens = .error cause rest) :
    cause.found = rest.head? ∧ ∃ taken, tokens = taken ++ rest ∧
      (∀ other, other.head? = rest.head? → parse (taken ++ other) = .error cause other) ∧
      ∃ more p, (∀ token ∈ more, token.Spelled) ∧ taken ++ more = Prototype.tokens p := by
  unfold parse at h
  split at h
  next name inner =>
    split at h
    next unopened =>
      obtain ⟨rfl, rfl⟩ := Outcome.error.inj h
      refine ⟨rfl, [.identifier name], rfl, fun other ho => ?_,
        [.symbol '(', .symbol ')'], ⟨name, []⟩, ?_, rfl⟩
      · rw [Token.after?_eq_none_iff, ← ho, ← Token.after?_eq_none_iff] at unopened
        simp [parse, unopened, ho]
      · simpa using ⟨Token.spelled_open, Token.spelled_close⟩
    next behind opened =>
      obtain rfl := Token.after?_eq_some.mp opened
      cases named : Token.names behind with
      | mk args left =>
        rw [named] at h
        simp only at h
        split at h
        · cases h
        next unclosed =>
          obtain ⟨rfl, rfl⟩ := Outcome.error.inj h
          obtain ⟨rfl, ended⟩ := Token.names_eq_iff.mp named
          refine ⟨rfl, .identifier name :: .symbol '(' :: args.map .identifier, by simp,
            fun other ho => ?_, [.symbol ')'], ⟨name, args⟩, Expr.spelled_closing, by
              simp [Prototype.tokens]⟩
          have named' : Token.names (args.map .identifier ++ other) = (args, other) :=
            Token.names_eq_iff.mpr ⟨rfl, by rwa [ho]⟩
          rw [Token.after?_eq_none_iff, ← ho, ← Token.after?_eq_none_iff] at unclosed
          simp [parse, named', unclosed, ho]
  next unnamed =>
    obtain ⟨rfl, rfl⟩ := Outcome.error.inj h
    refine ⟨rfl, [], rfl, fun other ho => ?_, Prototype.tokens ⟨Token.fillerName, []⟩,
      ⟨Token.fillerName, []⟩, ?_, rfl⟩
    · have unnamed' : ∀ name rest, other ≠ .identifier name :: rest := by
        rintro name rest rfl
        obtain ⟨more, rfl⟩ := List.head?_eq_some_iff.mp ho.symm
        exact unnamed _ _ rfl
      rw [List.nil_append, parse, ho]
      exact unnamed'
    · simpa [Prototype.tokens] using
        ⟨Token.spelled_fillerName, Token.spelled_open, Token.spelled_close⟩

namespace Construct

theorem parse_of_expression {tokens rest : List Token} {e : Expr}
    (h : Expr.parse table tokens = .ok e rest) :
    parse table tokens = .ok (.expression e) rest := by
  obtain ⟨taken, rfl, derived⟩ := Expr.parse_eq_ok_iff.mp h
  exact parse_eq_ok_iff.mpr ⟨taken, rfl, .expression derived⟩

theorem parse_define (tokens : List Token) :
    parse table (.define :: tokens) =
      (Prototype.parse tokens).andThen fun p left =>
        (Expr.parse table left).map fun body => .definition ⟨p, body⟩ := by
  rw [parse, Definition.parse]
  cases Prototype.parse tokens with
  | ok p left => cases h : Expr.parse table left <;> simp [h]
  | error => rfl

theorem parse_external (tokens : List Token) :
    parse table (.external :: tokens) = (Prototype.parse tokens).map .external := rfl

theorem parse_other {tokens : List Token} (hd : tokens.head? ≠ some .define)
    (he : tokens.head? ≠ some .external) :
    parse table tokens = (Expr.parse table tokens).map .expression := by
  unfold parse
  split
  · simp at hd
  · simp at he
  · rfl

theorem define_settles (tokens : List Token) :
    Settles table (parse table) (.define :: tokens) := by
  refine Settles.prepend [.define] ?_
  simp only [List.singleton_append, parse_define]
  cases hp : Prototype.parse tokens with
  | ok p left =>
    obtain rfl := Prototype.parse_eq_ok_iff.mp hp
    refine Settles.prepend _ ?_
    have prototype (rest : List Token) : Prototype.parse (p.tokens ++ rest) = .ok p rest :=
      Prototype.parse_eq_ok_iff.mpr rfl
    simp only [prototype, Outcome.andThen_ok]
    exact (Expr.reading_settles table left).2.2.2.map _
  | error cause rest =>
    obtain ⟨found, taken, rfl, repeats, more, p, spelled, whole⟩ := Prototype.parse_error hp
    refine .error cause found (fun other ho => ?_) ⟨more ++ [.filler],
      .definition ⟨p, .number (Numeral.value ['0'])⟩, ?_, fun rest hr => ?_⟩
    · rw [repeats other ho, Outcome.andThen_error]
    · intro token ht
      rcases List.mem_append.mp ht with ht | ht
      · exact spelled token ht
      · exact List.mem_singleton.mp ht ▸ Token.spelled_filler
    · have split : taken ++ (more ++ [.filler] ++ rest) = p.tokens ++ (.filler :: rest) := by
        rw [← whole]
        simp
      have prototype : Prototype.parse (taken ++ (more ++ [.filler] ++ rest)) =
          .ok p (.filler :: rest) := by
        rw [split]
        exact Prototype.parse_eq_ok_iff.mpr rfl
      have body : Expr.parse table (.filler :: rest) =
          .ok (.number (Numeral.value ['0'])) rest := by
        rw [Expr.parse_eq, Token.filler, Expr.parsePrimary_number, Outcome.andThen_ok]
        exact Expr.parseOperators_of_nextStrength_lt (hr.nextStrength_lt (by decide)) _
      simp only [prototype, Outcome.andThen_ok, body, Outcome.map_ok]

theorem external_settles (tokens : List Token) :
    Settles table (parse table) (.external :: tokens) := by
  refine Settles.prepend [.external] ?_
  simp only [List.singleton_append, parse_external]
  cases hp : Prototype.parse tokens with
  | ok p left =>
    obtain rfl := Prototype.parse_eq_ok_iff.mp hp
    refine .ok (.external p) fun other _ => ?_
    rw [Prototype.parse_eq_ok_iff.mpr rfl, Outcome.map_ok]
  | error cause rest =>
    obtain ⟨found, taken, rfl, repeats, more, p, spelled, whole⟩ := Prototype.parse_error hp
    refine .error cause found (fun other ho => ?_) ⟨more, .external p, spelled, fun rest _ => ?_⟩
    · rw [repeats other ho, Outcome.map_error]
    · rw [← List.append_assoc, whole]
      exact Outcome.map_eq_ok.mpr ⟨p, Prototype.parse_eq_ok_iff.mpr rfl, rfl⟩

/-- Reading a construct decides on the tokens it takes and the next one. -/
theorem parse_settles (table : OperatorTable) (tokens : List Token) :
    Settles table (parse table) tokens := by
  by_cases define : tokens.head? = some .define
  · obtain ⟨rest, rfl⟩ := List.head?_eq_some_iff.mp define
    exact define_settles rest
  by_cases external : tokens.head? = some .external
  · obtain ⟨rest, rfl⟩ := List.head?_eq_some_iff.mp external
    exact external_settles rest
  cases (Expr.reading_settles table tokens).2.2.2 with
  | ok e repeats => exact .ok (.expression e) fun other ho => parse_of_expression (repeats other ho)
  | error cause found repeats completes =>
    obtain ⟨more, e, spelled, completed⟩ := completes
    refine .error cause found (fun other ho => ?_)
      ⟨more, .expression e, spelled, fun rest hr => parse_of_expression (completed rest hr)⟩
    rw [← Settles.head?_congr ho] at define external
    rw [parse_other define external, repeats other ho, Outcome.map_error]

end Construct

theorem parseProgram_error {tokens rest : List Token} {cause : SyntaxError}
    (h : parseProgram table tokens = .error cause rest) :
    cause.found = rest.head? ∧ ∃ taken, tokens = taken ++ rest ∧
      (∀ other, other.head? = rest.head? →
        parseProgram table (taken ++ other) = .error cause other) ∧
      (¬ table.isOperator ')' = true → ∃ more constructs, (∀ token ∈ more, token.Spelled) ∧
        parseProgram table (taken ++ more) = .ok constructs []) := by
  fun_induction parseProgram table tokens
  case case1 => cases h
  case case2 tokens _ left after ih =>
    obtain ⟨found, taken, rfl, repeats, completes⟩ := ih h
    obtain rfl := Token.after?_eq_some.mp after
    refine ⟨found, .symbol ';' :: taken, rfl, fun other ho => ?_, fun free => ?_⟩
    · rw [List.cons_append, parseProgram_semicolon, repeats other ho]
    · obtain ⟨more, constructs, spelled, completed⟩ := completes free
      exact ⟨more, constructs, spelled, by
        rw [List.cons_append, parseProgram_semicolon, completed]⟩
  case case3 tokens _ _ c left parsed ih =>
    obtain ⟨found, taken', rfl, repeats', completes'⟩ := ih (Outcome.map_eq_error.mp h)
    cases Construct.parse_settles table tokens with
    | @ok taken left' c' repeats =>
      obtain ⟨rfl, rfl⟩ := Outcome.ok.inj (parsed.symm.trans (repeats left' (.inl rfl)))
      refine ⟨found, taken ++ taken', by simp, fun other ho => ?_, fun free => ?_⟩
      · rw [List.append_assoc,
          parseProgram_of_parse (repeats _ (.inl (Settles.head?_congr ho))), repeats' other ho,
          Outcome.map_error]
      · cases taken' with
        | nil =>
          -- The construct before the error may end the program.
          have last := repeats [] (.inr ⟨free, .inl rfl⟩)
          refine ⟨[], [c], by simp, ?_⟩
          rw [List.append_nil, parseProgram_of_parse last, parseProgram_nil, Outcome.map_ok]
        | cons t taken' =>
          obtain ⟨more, constructs, spelled, completed⟩ := completes' free
          refine ⟨more, c :: constructs, spelled, ?_⟩
          have first := repeats (t :: taken' ++ more) (.inl rfl)
          rw [List.append_assoc, parseProgram_of_parse first, completed, Outcome.map_ok]
    | error cause' found' repeats completes =>
      exact absurd (parsed.symm.trans (repeats _ rfl)) (by simp)
  case case4 tokens nonempty after cause' left failed =>
    obtain ⟨rfl, rfl⟩ := Outcome.error.inj h
    cases Construct.parse_settles table tokens with
    | ok c repeats => exact absurd (failed.symm.trans (repeats _ (.inl rfl))) (by simp)
    | @error taken left' cause' found repeats completes =>
      obtain ⟨rfl, rfl⟩ := Outcome.error.inj (failed.symm.trans (repeats left' rfl))
      refine ⟨found, taken, rfl, fun other ho => ?_, fun free => ?_⟩
      · have same : (taken ++ other).head? = (taken ++ left).head? := Settles.head?_congr ho
        have filled : taken ++ other ≠ [] := by
          rw [ne_eq, ← List.head?_eq_none_iff, same, List.head?_eq_none_iff]
          exact nonempty
        rw [parseProgram_construct filled (by rwa [same, ← Token.after?_eq_none_iff]),
          repeats other ho, Outcome.andThen_error]
      · obtain ⟨more, c, spelled, completed⟩ := completes
        have last := completed [] ⟨free, .inl rfl⟩
        rw [List.append_nil] at last
        exact ⟨more, [c], spelled, by
          rw [parseProgram_of_parse last, parseProgram_nil, Outcome.map_ok]⟩

/--
An error carries the token at which reading stopped. Any other source that begins with the tokens
taken and has the same next token fails alike and at the same place, and, where the closing
parenthesis is no operator, some text begins with the tokens taken and is accepted.
-/
theorem parseProgram_fails_early (table : OperatorTable) (source : Cursor) {cause : SyntaxError}
    {rest : List Token} (h : parseProgram table source.tokens = .error cause rest) :
    cause.found = rest.head? ∧ ∃ taken, source.tokens = taken ++ rest ∧
      (∀ other, other.head? = rest.head? →
        parseProgram table (taken ++ other) = .error cause other) ∧
      (table.isOperator ')' = false → ∃ text constructs, taken <+: Token.ofText text ∧
        parseText table text = .ok constructs) := by
  obtain ⟨found, taken, split, repeats, completes⟩ := parseProgram_error h
  refine ⟨found, taken, split, repeats, fun free => ?_⟩
  obtain ⟨more, constructs, spelled, completed⟩ := completes (by simp [free])
  have whole : ∀ token ∈ taken ++ more, token.Spelled := by
    intro token ht
    rcases List.mem_append.mp ht with ht | ht
    · have read : token ∈ source.tokens := by simp [split, ht]
      exact Token.exists_lexeme read
    · exact spelled token ht
  obtain ⟨text, tokens⟩ := Token.exists_text whole
  refine ⟨text, constructs, tokens ▸ List.prefix_append taken more, ?_⟩
  rw [parseText, tokens, completed]

/-- An error inside a call inside parentheses, behind an operator. -/
theorem parseProgram_fails_early_nested :
    parseProgram .standard (Token.ofText "x (y + g(a, b * ;") =
      .error (.unexpected (some (.symbol ';'))) [.symbol ';'] ∧
    parseProgram .standard (Token.ofText "x (y + g(a, b * ; c)") =
      .error (.unexpected (some (.symbol ';'))) (Token.ofText "; c)") ∧
    ∃ text constructs, Token.ofText "x (y + g(a, b *" <+: Token.ofText text ∧
      parseText .standard text = .ok constructs := by
  have failed : parseProgram .standard (Cursor.ofChars "x (y + g(a, b * ;".toList).tokens =
      .error (.unexpected (some (.symbol ';'))) [.symbol ';'] := by decide +kernel
  obtain ⟨-, taken, split, repeats, completes⟩ := parseProgram_fails_early .standard _ failed
  have front : (Cursor.ofChars "x (y + g(a, b * ;".toList).tokens =
      Token.ofText "x (y + g(a, b *" ++ [.symbol ';'] := by decide +kernel
  obtain rfl := List.append_cancel_right (front.symm.trans split)
  have other : Token.ofText "x (y + g(a, b * ; c)" =
      Token.ofText "x (y + g(a, b *" ++ Token.ofText "; c)" := by decide +kernel
  refine ⟨failed, ?_, completes (by decide +kernel)⟩
  rw [other]
  exact repeats _ (by decide +kernel)

end Formula
