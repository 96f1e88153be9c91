/-! # Patterns with preferences

A pattern matches prefixes of a text. Where it can go on in several ways these are tried in order:
an optional part is rather taken than left out, a repetition rather goes on than ends, and the first
alternative comes before the second. The first match is what is found, be it long or short.
-/

namespace Formula.Text

inductive Pattern where
  /-- One character of a class. -/
  | one (p : Char → Bool)
  | optional (pattern : Pattern)
  /-- Any number of characters of a class. -/
  | repeated (p : Char → Bool)
  | followed (first second : Pattern)
  | either (first second : Pattern)

/-- The runs of a class that a text begins with, the longest first. -/
def runs (p : Char → Bool) : List Char → List (List Char)
  | [] => [[]]
  | c :: text => if p c then (runs p text).map (c :: ·) ++ [[]] else [[]]

theorem head?_runs (p : Char → Bool) (text : List Char) :
    (runs p text).head? = some (text.takeWhile p) := by
  induction text with
  | nil => rfl
  | cons c text ih => by_cases h : p c = true <;> simp [runs, h, ih]

namespace Pattern

/-- The prefixes of a text that a pattern matches, in the order in which they are tried. -/
def matched : Pattern → List Char → List (List Char)
  | one _, [] => []
  | one p, c :: _ => if p c then [[c]] else []
  | optional pattern, text => pattern.matched text ++ [[]]
  | repeated p, text => runs p text
  | followed first second, text =>
    (first.matched text).flatMap fun front =>
      (second.matched (text.drop front.length)).map (front ++ ·)
  | either first second, text => first.matched text ++ second.matched text

def match? (pattern : Pattern) (text : List Char) : Option (List Char) :=
  (pattern.matched text).head?

variable {first second : Pattern} {p : Char → Bool} {c : Char} {text front back : List Char}

theorem match?_optional (pattern : Pattern) (text : List Char) :
    (optional pattern).match? text = some ((pattern.match? text).getD []) := by
  rw [match?, matched, List.head?_append]
  cases h : pattern.match? text <;> simp_all [match?]

theorem match?_repeated (p : Char → Bool) (text : List Char) :
    (repeated p).match? text = some (text.takeWhile p) := head?_runs p text

theorem match?_either (first second : Pattern) (text : List Char) :
    (either first second).match? text = (first.match? text).or (second.match? text) :=
  List.head?_append

theorem match?_followed_of_none (h : first.match? text = none) :
    (followed first second).match? text = none := by
  rw [match?, List.head?_eq_none_iff] at *
  rw [matched, h, List.flatMap_nil]

/-- Where the second part matches behind the first match of the first part, that match stays. -/
theorem match?_followed (h : first.match? text = some front)
    (h' : second.match? (text.drop front.length) = some back) :
    (followed first second).match? text = some (front ++ back) := by
  obtain ⟨others, found⟩ := List.head?_eq_some_iff.mp h
  rw [match?] at h'
  rw [match?, matched, found, List.flatMap_cons, List.head?_append, List.head?_map, h']
  rfl

theorem match?_one_followed (p : Char → Bool) (second : Pattern) (c : Char) (text : List Char) :
    (followed (one p) second).match? (c :: text) =
      if p c = true then (second.match? text).map (c :: ·) else none := by
  by_cases h : p c = true <;> simp [match?, matched, h]

end Pattern

end Formula.Text
