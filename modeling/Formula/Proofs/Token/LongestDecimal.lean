import Formula.Proofs.Binary64.Literal
import Formula.Proofs.Text.Pattern

/-! # The longest decimal of a run

Digits spell a decimal, alone or with a point before, behind or among them. In a run of digits and
points the longest prefix that spells one is what stands before the second point, if there is a
digit in it. The first match of a pattern that looks for no longest match is the same prefix, and
the number of the run is the one nearest to it.
-/

namespace Formula

def Digits.value (digits : Digits) : Nat := Nat.ofDigitChars 10 digits.chars 0

namespace Numeral

/-- The spellings of a decimal, with the number that each spells. -/
inductive Spells : List Char → ℚ → Prop where
  | whole (whole : Digits) : Spells whole.chars whole.value
  | pointed (whole : Digits) : Spells (whole.chars ++ ['.']) whole.value
  | mixed (whole fraction : Digits) : Spells (whole.chars ++ '.' :: fraction.chars)
    (whole.value + fraction.value / 10 ^ fraction.chars.length)
  | fraction (fraction : Digits) : Spells ('.' :: fraction.chars)
    (fraction.value / 10 ^ fraction.chars.length)

structure LongestDecimal (run text : List Char) : Prop where
  spelled : ∃ q, Spells text q
  starts : text <+: run
  longest : ∀ other, other <+: run → (∃ q, Spells other q) → other.length ≤ text.length

/-- The number nearest to the longest decimal of a run, or 0 where no prefix spells a decimal. -/
inductive Denotes (run : List Char) : Binary64 → Prop where
  | decimal {text : List Char} {q : ℚ} {x : Binary64} : LongestDecimal run text → Spells text q →
    x.IsNearest q → Denotes run x
  | nothing : (∀ text q, text <+: run → ¬ Spells text q) → Denotes run Binary64.zero

/-- What stands before the point that `n` others precede, or all of a text with fewer points. -/
def beforePoint : Nat → List Char → List Char
  | _, [] => []
  | 0, '.' :: _ => []
  | n + 1, '.' :: rest => '.' :: beforePoint n rest
  | n, c :: rest => c :: beforePoint n rest

variable {run text whole fraction rest : List Char} {n : Nat} {q : ℚ}

theorem beforePoint_cons {c : Char} (h : c ≠ '.') (rest : List Char) :
    beforePoint n (c :: rest) = c :: beforePoint n rest := by
  cases n <;> simp [beforePoint, h]

theorem beforePoint_append (h : ∀ c ∈ whole, c ≠ '.') (rest : List Char) :
    beforePoint n (whole ++ rest) = whole ++ beforePoint n rest := by
  induction whole with
  | nil => rfl
  | cons c whole ih =>
    rw [List.cons_append, beforePoint_cons (h c List.mem_cons_self),
      ih fun d hd => h d (List.mem_cons_of_mem c hd), List.cons_append]

theorem beforePoint_isPrefix (n : Nat) (run : List Char) : beforePoint n run <+: run := by
  fun_induction beforePoint n run with
  | case1 => exact List.prefix_rfl
  | case2 => exact List.nil_prefix
  | case3 n rest ih => exact (List.prefix_cons_inj _).mpr ih
  | case4 n c rest _ _ ih => exact (List.prefix_cons_inj _).mpr ih

theorem prefix_beforePoint (starts : text <+: run) (few : text.count '.' ≤ n) :
    text <+: beforePoint n run := by
  obtain ⟨rest, rfl⟩ := starts
  induction text generalizing n with
  | nil => exact List.nil_prefix
  | cons c text ih =>
    by_cases point : c = '.'
    · subst point
      cases n with
      | zero => simp at few
      | succ n =>
        rw [List.count_cons_self] at few
        exact (List.prefix_cons_inj _).mpr (ih (by omega))
    · rw [List.count_cons_of_ne point] at few
      rw [List.cons_append, beforePoint_cons point]
      exact (List.prefix_cons_inj c).mpr (ih few)

theorem ne_point_of_isDigit {c : Char} (h : c.isDigit = true) : c ≠ '.' := by
  rintro rfl
  cases h

theorem stops_of_point (ends : ∀ c, rest.head? = some c → c = '.') :
    Token.Stops Char.isDigit rest := by
  intro c head
  rw [ends c head]
  rfl

/-- Digits alone, or digits on both sides of a point, where the text ends or another point comes. -/
inductive Cut : List Char → Prop where
  | digits {whole : List Char} : (∀ c ∈ whole, c.isDigit = true) → Cut whole
  | pointed {whole fraction rest : List Char} : (∀ c ∈ whole, c.isDigit = true) →
    (∀ c ∈ fraction, c.isDigit = true) → (∀ c, rest.head? = some c → c = '.') →
    Cut (whole ++ '.' :: (fraction ++ rest))

theorem exists_digits (parts : ∀ c ∈ run, isPart c = true) :
    ∃ whole rest, run = whole ++ rest ∧ (∀ c ∈ whole, c.isDigit = true) ∧
      ∀ c, rest.head? = some c → c = '.' := by
  refine ⟨run.takeWhile Char.isDigit, run.dropWhile Char.isDigit,
    List.takeWhile_append_dropWhile.symm, List.all_eq_true.mp List.all_takeWhile, ?_⟩
  intro c head
  have stops := Token.stops_dropWhile Char.isDigit run c head
  have part := parts c ((List.dropWhile_suffix _).subset (List.mem_of_head? head))
  simpa [isPart, stops] using part

theorem cut_of_isPart (parts : ∀ c ∈ run, isPart c = true) : Cut run := by
  obtain ⟨whole, rest, rfl, digits, ends⟩ := exists_digits parts
  cases rest with
  | nil =>
    rw [List.append_nil]
    exact .digits digits
  | cons c rest =>
    obtain rfl := ends c rfl
    have behind : ∀ c ∈ rest, isPart c = true := fun c hc => parts c (by simp [hc])
    obtain ⟨fraction, rest, rfl, digits', ends'⟩ := exists_digits behind
    exact .pointed digits digits' ends'

section

variable (h : ∀ c ∈ whole, c.isDigit = true) (h' : ∀ c ∈ fraction, c.isDigit = true)

include h

theorem beforePoint_digits : beforePoint n whole = whole := by
  have point_free : ∀ c ∈ whole, c ≠ '.' := fun c hc => ne_point_of_isDigit (h c hc)
  simpa [beforePoint] using beforePoint_append (n := n) point_free []

theorem exists_isDigit_iff : (∃ c ∈ whole, c.isDigit = true) ↔ whole ≠ [] := by
  constructor
  · rintro ⟨c, mem, -⟩
    exact List.ne_nil_of_mem mem
  · intro nonempty
    obtain ⟨c, mem⟩ := List.exists_mem_of_ne_nil _ nonempty
    exact ⟨c, mem, h c mem⟩

include h'

theorem beforePoint_pointed (ends : ∀ c, rest.head? = some c → c = '.') :
    beforePoint 1 (whole ++ '.' :: (fraction ++ rest)) = whole ++ '.' :: fraction := by
  have behind : beforePoint 0 rest = [] := by
    cases rest with
    | nil => rfl
    | cons c rest =>
      obtain rfl := ends c rfl
      rfl
  rw [beforePoint_append fun c hc => ne_point_of_isDigit (h c hc), beforePoint,
    beforePoint_append fun c hc => ne_point_of_isDigit (h' c hc), behind, List.append_nil]

theorem exists_isDigit_pointed_iff :
    (∃ c ∈ whole ++ '.' :: fraction, c.isDigit = true) ↔ ¬ (whole = [] ∧ fraction = []) := by
  constructor
  · rintro ⟨c, mem, digit⟩ ⟨rfl, rfl⟩
    obtain rfl := List.mem_singleton.mp mem
    cases digit
  · intro nonempty
    rcases not_and_or.mp nonempty with before | behind
    · obtain ⟨c, mem, digit⟩ := (exists_isDigit_iff h).mpr before
      exact ⟨c, List.mem_append_left _ mem, digit⟩
    · obtain ⟨c, mem, digit⟩ := (exists_isDigit_iff h').mpr behind
      exact ⟨c, List.mem_append_right _ (List.mem_cons_of_mem _ mem), digit⟩

theorem exists_spells (nonempty : ¬ (whole = [] ∧ fraction = [])) :
    ∃ q, Spells (whole ++ '.' :: fraction) q := by
  by_cases noWhole : whole = []
  · subst noWhole
    exact ⟨_, .fraction ⟨fraction, by simpa using nonempty, h'⟩⟩
  · by_cases noFraction : fraction = []
    · subst noFraction
      exact ⟨_, .pointed ⟨whole, noWhole, h⟩⟩
    · exact ⟨_, .mixed ⟨whole, noWhole, h⟩ ⟨fraction, noFraction, h'⟩⟩

end

theorem count_point (digits : Digits) : digits.chars.count '.' = 0 :=
  List.count_eq_zero.mpr fun mem => ne_point_of_isDigit (digits.isDigit _ mem) rfl

theorem Spells.count_point_le (h : Spells text q) : text.count '.' ≤ 1 := by
  cases h <;> simp [count_point]

theorem exists_mem_digits (digits : Digits) : ∃ c ∈ digits.chars, c.isDigit = true :=
  (exists_isDigit_iff digits.isDigit).mpr digits.nonempty

theorem Spells.exists_isDigit (h : Spells text q) : ∃ c ∈ text, c.isDigit = true := by
  cases h with
  | whole whole => exact exists_mem_digits whole
  | pointed whole | mixed whole _ =>
    obtain ⟨c, mem, digit⟩ := exists_mem_digits whole
    exact ⟨c, List.mem_append_left _ mem, digit⟩
  | fraction fraction =>
    obtain ⟨c, mem, digit⟩ := exists_mem_digits fraction
    exact ⟨c, List.mem_cons_of_mem _ mem, digit⟩

theorem value_decimal (whole fraction : List Char) : (decimal whole fraction).value =
    Nat.ofDigitChars 10 whole 0 + Nat.ofDigitChars 10 fraction 0 / 10 ^ fraction.length := by
  rw [Decimal.value, decimal, Nat.ofDigitChars_append, Nat.ofDigitChars_eq_ofDigitChars_zero,
    zpow_neg, zpow_natCast, ← div_eq_mul_inv, Nat.cast_add, add_div, Nat.cast_mul, Nat.cast_pow,
    Nat.cast_ofNat, mul_div_cancel_left₀ _ (by positivity)]

theorem Spells.exists_decimal (h : Spells text q) :
    ∃ d, prefixDecimal? text = some d ∧ d.value = q := by
  cases h with
  | whole whole =>
    refine ⟨_, prefixDecimal?_whole whole.nonempty whole.isDigit, ?_⟩
    simp [value_decimal, Digits.value]
  | pointed whole =>
    refine ⟨_, prefixDecimal?_point whole.nonempty whole.isDigit nofun, ?_⟩
    simp [value_decimal, Digits.value]
  | mixed whole fraction =>
    refine ⟨_, prefixDecimal?_point whole.nonempty whole.isDigit fraction.isDigit, ?_⟩
    simp [value_decimal, Digits.value]
  | fraction fraction =>
    have read := @prefixDecimal?_pointed [] fraction.chars nofun fraction.isDigit
    rw [if_neg fun empty => fraction.nonempty empty.2] at read
    refine ⟨_, read, ?_⟩
    simp [value_decimal, Digits.value]

namespace Cut

theorem exists_spells (cut : Cut run) (digit : ∃ c ∈ beforePoint 1 run, c.isDigit = true) :
    ∃ q, Spells (beforePoint 1 run) q := by
  cases cut with
  | digits h =>
    rw [beforePoint_digits h, exists_isDigit_iff h] at *
    exact ⟨_, .whole ⟨run, digit, h⟩⟩
  | pointed h h' ends =>
    rw [beforePoint_pointed h h' ends, exists_isDigit_pointed_iff h h'] at *
    exact Numeral.exists_spells h h' digit

theorem prefixDecimal?_eq (cut : Cut run) :
    prefixDecimal? (beforePoint 1 run) = prefixDecimal? run := by
  cases cut with
  | digits h => rw [beforePoint_digits h]
  | pointed h h' ends =>
    rw [beforePoint_pointed h h' ends, prefixDecimal?_pointed h h',
      prefixDecimal?_cut h h' (stops_of_point ends)]

theorem prefixDecimal?_eq_none (cut : Cut run)
    (blank : ¬ ∃ c ∈ beforePoint 1 run, c.isDigit = true) : prefixDecimal? run = none := by
  cases cut with
  | digits h =>
    rw [beforePoint_digits h, exists_isDigit_iff h, not_not] at blank
    rw [blank]
    rfl
  | pointed h h' ends =>
    rw [beforePoint_pointed h h' ends, exists_isDigit_pointed_iff h h', not_not] at blank
    rw [prefixDecimal?_cut h h' (stops_of_point ends), if_pos blank]

end Cut

open Text Text.Pattern

def digitsPattern : Pattern := followed (one Char.isDigit) (repeated Char.isDigit)

def remainder : Pattern := followed (optional (one (· == '.'))) (repeated Char.isDigit)

/-- Digits with what may follow them, or else a point and digits. -/
def pattern : Pattern :=
  either (followed digitsPattern remainder) (followed (one (· == '.')) digitsPattern)

section

variable (h : ∀ c ∈ whole, c.isDigit = true) (h' : ∀ c ∈ fraction, c.isDigit = true)

include h

theorem match?_digitsPattern (stops : Token.Stops Char.isDigit rest) :
    digitsPattern.match? (whole ++ rest) = if whole = [] then none else some whole := by
  have taken := (Token.takeWhile_of_breaks h stops).1
  generalize whole ++ rest = text at taken
  subst taken
  cases text with
  | nil => rfl
  | cons c text =>
    rw [digitsPattern, match?_one_followed, match?_repeated]
    by_cases digit : c.isDigit = true <;> simp [digit]

theorem match?_digits : pattern.match? whole = if whole = [] then none else some whole := by
  have front := match?_digitsPattern h (Token.stops_nil _)
  rw [List.append_nil] at front
  split
  next empty =>
    rw [empty]
    rfl
  next nonempty =>
    rw [if_neg nonempty] at front
    have back : remainder.match? (whole.drop whole.length) = some [] := by
      rw [List.drop_length]
      rfl
    rw [pattern, match?_either, match?_followed front back, List.append_nil, Option.some_or]

omit h

include h'

theorem match?_remainder (stops : Token.Stops Char.isDigit rest) :
    remainder.match? ('.' :: (fraction ++ rest)) = some ('.' :: fraction) := by
  have taken := (Token.takeWhile_of_breaks h' stops).1
  refine match?_followed (match?_optional _ _) ?_
  rw [match?_repeated]
  exact congrArg some taken

include h

theorem match?_cut (stops : Token.Stops Char.isDigit rest) :
    pattern.match? (whole ++ '.' :: (fraction ++ rest)) =
      if whole = [] ∧ fraction = [] then none else some (whole ++ '.' :: fraction) := by
  have point := Token.stops_cons (p := Char.isDigit) (c := '.') rfl (fraction ++ rest)
  have front := match?_digitsPattern h point
  by_cases noWhole : whole = []
  · subst noWhole
    rw [if_pos rfl] at front
    rw [pattern, match?_either, match?_followed_of_none front, Option.none_or, List.nil_append,
      match?_one_followed, match?_digitsPattern h' stops]
    by_cases noFraction : fraction = [] <;> simp [noFraction]
  · rw [if_neg noWhole] at front
    have back : remainder.match? ((whole ++ '.' :: (fraction ++ rest)).drop whole.length) =
        some ('.' :: fraction) := by
      rw [List.drop_left, match?_remainder h' stops]
    rw [pattern, match?_either, match?_followed front back, Option.some_or,
      if_neg fun empty => noWhole empty.1]

end

/-- What spells a decimal is converted to the number nearest to it. -/
def Converts (convert : List Char → Option Binary64) : Prop :=
  ∀ text q, Spells text q → ∃ x, convert text = some x ∧ x.IsNearest q

/-- What the first match of the pattern in a run is converted to, or 0 where nothing is found. -/
def valueOfMatch (convert : List Char → Option Binary64) (run : List Char) : Binary64 :=
  ((pattern.match? run).bind convert).getD Binary64.zero

theorem converts_ofDecimal : Converts fun text => (prefixDecimal? text).map Binary64.ofDecimal := by
  intro text q spells
  obtain ⟨d, read, rfl⟩ := spells.exists_decimal
  exact ⟨_, Option.map_eq_some_iff.mpr ⟨d, read, rfl⟩, Binary64.isNearest_ofDecimal d⟩

/-- The first match is what stands before the second point, if there is a digit in it. -/
theorem Cut.match?_eq_some_iff (cut : Cut run) : pattern.match? run = some text ↔
    text = beforePoint 1 run ∧ ∃ c ∈ text, c.isDigit = true := by
  have found {P : Prop} [Decidable P] {front : List Char}
      (digit : (∃ c ∈ front, c.isDigit = true) ↔ ¬ P) :
      (if P then none else some front) = some text ↔
        text = front ∧ ∃ c ∈ text, c.isDigit = true := by
    rw [Option.ite_none_left_eq_some, Option.some_inj, ← digit]
    constructor
    · rintro ⟨some, rfl⟩
      exact ⟨rfl, some⟩
    · rintro ⟨rfl, some⟩
      exact ⟨some, rfl⟩
  cases cut with
  | digits h =>
    rw [beforePoint_digits h, match?_digits h]
    exact found (exists_isDigit_iff h)
  | pointed h h' ends =>
    rw [beforePoint_pointed h h' ends, match?_cut h h' (stops_of_point ends)]
    exact found (exists_isDigit_pointed_iff h h')

section

variable (parts : ∀ c ∈ run, isPart c = true)

include parts

theorem longestDecimal_iff :
    LongestDecimal run text ↔ text = beforePoint 1 run ∧ ∃ c ∈ text, c.isDigit = true := by
  constructor
  · rintro ⟨⟨q, spells⟩, starts, longest⟩
    have within := prefix_beforePoint starts spells.count_point_le
    obtain ⟨c, mem, digit⟩ := spells.exists_isDigit
    have whole := (cut_of_isPart parts).exists_spells ⟨c, within.subset mem, digit⟩
    refine ⟨within.eq_of_length_le ?_, c, mem, digit⟩
    exact longest _ (beforePoint_isPrefix 1 run) whole
  · rintro ⟨rfl, digit⟩
    refine ⟨(cut_of_isPart parts).exists_spells digit, beforePoint_isPrefix 1 run, ?_⟩
    rintro other starts ⟨q, spells⟩
    exact (prefix_beforePoint starts spells.count_point_le).length_le

theorem value_beforePoint : value (beforePoint 1 run) = value run := by
  rw [value, (cut_of_isPart parts).prefixDecimal?_eq, value]

theorem value_of_blank (blank : ¬ ∃ c ∈ beforePoint 1 run, c.isDigit = true) :
    value run = Binary64.zero := by
  rw [value, (cut_of_isPart parts).prefixDecimal?_eq_none blank]

theorem isNearest_value (longest : LongestDecimal run text) (spells : Spells text q) :
    (value run).IsNearest q := by
  obtain ⟨rfl, -⟩ := (longestDecimal_iff parts).mp longest
  obtain ⟨d, read, rfl⟩ := spells.exists_decimal
  rw [← value_beforePoint parts, value, read]
  exact Binary64.isNearest_ofDecimal d

theorem denotes_value : Denotes run (value run) := by
  by_cases digit : ∃ c ∈ beforePoint 1 run, c.isDigit = true
  · have longest := (longestDecimal_iff parts).mpr ⟨rfl, digit⟩
    obtain ⟨q, spells⟩ := longest.spelled
    exact .decimal longest spells (isNearest_value parts longest spells)
  · rw [value_of_blank parts digit]
    refine .nothing fun text q starts spells => digit ?_
    obtain ⟨c, mem, isDigit⟩ := spells.exists_isDigit
    exact ⟨c, (prefix_beforePoint starts spells.count_point_le).subset mem, isDigit⟩

theorem Denotes.value_eq {x : Binary64} (h : Denotes run x) : value run = x := by
  cases h with
  | decimal longest spells nearest => exact (isNearest_value parts longest spells).unique nearest
  | nothing none =>
    refine value_of_blank parts fun digit => ?_
    obtain ⟨q, spells⟩ := (cut_of_isPart parts).exists_spells digit
    exact none _ q (beforePoint_isPrefix 1 run) spells

theorem valueOfMatch_eq {convert : List Char → Option Binary64} (converts : Converts convert) :
    valueOfMatch convert run = value run := by
  have cut := cut_of_isPart parts
  cases found : pattern.match? run with
  | none =>
    have blank : ¬ ∃ c ∈ beforePoint 1 run, c.isDigit = true := fun digit => by
      simp [cut.match?_eq_some_iff.mpr ⟨rfl, digit⟩] at found
    rw [valueOfMatch, found, value_of_blank parts blank]
    rfl
  | some text =>
    have longest := (longestDecimal_iff parts).mpr (cut.match?_eq_some_iff.mp found)
    obtain ⟨q, spells⟩ := longest.spelled
    obtain ⟨x, converted, nearest⟩ := converts text q spells
    rw [valueOfMatch, found, Option.bind_some, converted, Option.getD_some]
    exact nearest.unique (isNearest_value parts longest spells)

end

/--
A run denotes the number nearest to its longest decimal, and 0 without one. The longest decimal is
what the pattern matches first, and what stands before the second point if there is a digit in it.
Whatever converts decimals to the numbers nearest to them, applied to that match, gives this number.
-/
theorem value_longestDecimal {run : List Char} (parts : ∀ c ∈ run, isPart c = true) :
    (∀ x, value run = x ↔ Denotes run x) ∧
    (∀ text, pattern.match? run = some text ↔ LongestDecimal run text) ∧
    (∀ text, LongestDecimal run text ↔
      text = beforePoint 1 run ∧ ∃ c ∈ text, c.isDigit = true) ∧
    value run = value (beforePoint 1 run) ∧
    ((∀ c ∈ beforePoint 1 run, c.isDigit = false) → value run = Binary64.zero) ∧
    ∀ convert, Converts convert → valueOfMatch convert run = value run := by
  refine ⟨fun x => ⟨?_, Denotes.value_eq parts⟩, fun text => ?_,
    fun text => longestDecimal_iff parts, (value_beforePoint parts).symm, fun blank => ?_,
    fun convert => valueOfMatch_eq parts⟩
  · rintro rfl
    exact denotes_value parts
  · rw [longestDecimal_iff parts]
    exact (cut_of_isPart parts).match?_eq_some_iff
  · refine value_of_blank parts ?_
    rintro ⟨c, mem, digit⟩
    rw [blank c mem] at digit
    cases digit

/-- Of `.1.5` the first two characters are read, as the number nearest to a tenth. -/
theorem value_longestDecimal_twoPoints :
    (∀ c ∈ ['.', '1', '.', '5'], isPart c = true) ∧
    pattern.match? ['.', '1', '.', '5'] = some ['.', '1'] ∧
    LongestDecimal ['.', '1', '.', '5'] ['.', '1'] ∧
    Denotes ['.', '1', '.', '5'] ⟨0x3FB999999999999A⟩ ∧
    value ['.', '1', '.', '5'] = value ['.', '1'] ∧
    valueOfMatch (fun text => (prefixDecimal? text).map Binary64.ofDecimal) ['.', '1', '.', '5'] =
      ⟨0x3FB999999999999A⟩ := by
  have parts : ∀ c ∈ ['.', '1', '.', '5'], isPart c = true := List.all_eq_true.mp rfl
  have tenth : value ['.', '1', '.', '5'] = ⟨0x3FB999999999999A⟩ := by decide +kernel
  obtain ⟨denotes, found, longest, before, -, converted⟩ := value_longestDecimal parts
  have twoCharacters : LongestDecimal ['.', '1', '.', '5'] ['.', '1'] :=
    (longest _).mpr ⟨rfl, '1', by decide⟩
  exact ⟨parts, (found _).mpr twoCharacters, twoCharacters, (denotes _).mp tenth, before,
    (converted _ converts_ofDecimal).trans tenth⟩

end Numeral

end Formula
