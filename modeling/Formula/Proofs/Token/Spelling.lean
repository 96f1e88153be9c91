import Formula.Syntax.Basic
import Formula.Token.Cursor

/-! # How names are spelled

A name in a source begins with a letter and goes on with letters and digits, and it is no
keyword. The name of the function around an expression that stands alone is not spelled
like this, so no source can use it.
-/

namespace Formula

structure IsName (name : String) : Prop where
  begins : ∃ c rest, name.toList = c :: rest ∧ c.isAlpha = true
  alphanumeric : ∀ c ∈ name.toList, c.isAlphanum = true
  notDefine : name ≠ "def"
  notExternal : name ≠ "extern"

theorem isName_iff {name : String} :
    IsName name ↔ (name.toList.head?.any Char.isAlpha = true ∧
      name.toList.all Char.isAlphanum = true) ∧ name ≠ "def" ∧ name ≠ "extern" := by
  constructor
  · rintro ⟨⟨c, rest, spelled, alpha⟩, all, notDefine, notExternal⟩
    exact ⟨⟨by simp [spelled, alpha], List.all_eq_true.mpr all⟩, notDefine, notExternal⟩
  · rintro ⟨⟨begins, all⟩, notDefine, notExternal⟩
    cases spelled : name.toList with
    | nil => simp [spelled] at begins
    | cons c rest =>
      have alpha : c.isAlpha = true := by simpa [spelled] using begins
      exact ⟨⟨c, rest, spelled, alpha⟩, List.all_eq_true.mp all, notDefine, notExternal⟩

instance : DecidablePred IsName := fun _ => decidable_of_iff _ isName_iff.symm

theorem IsName.ne_anonymousName {name : String} (h : IsName name) :
    name ≠ Prototype.anonymousName := by
  rintro rfl
  have underscore := h.alphanumeric '_' (by decide)
  cases underscore

theorem IsName.ofWord_eq {name : String} (h : IsName name) :
    Token.ofWord name.toList = .identifier name := by
  have notDefine : name.toList ≠ ['d', 'e', 'f'] := fun same => h.notDefine (String.ext same)
  have notExternal : name.toList ≠ ['e', 'x', 't', 'e', 'r', 'n'] :=
    fun same => h.notExternal (String.ext same)
  rw [Token.ofWord, if_neg notDefine, if_neg notExternal, String.ofList_toList]

def Token.Named (token : Token) : Prop := ∀ name, token = .identifier name → IsName name

theorem Token.named_ofWord {word : List Char} {c : Char} (hc : word.head? = some c)
    (alpha : c.isAlpha = true) (all : ∀ d ∈ word, d.isAlphanum = true) :
    (Token.ofWord word).Named := by
  intro name h
  unfold ofWord at h
  split at h
  · cases h
  · split at h
    · cases h
    next notDefine notExternal =>
      obtain rfl := Token.identifier.inj h
      obtain ⟨rest, rfl⟩ := List.head?_eq_some_iff.mp hc
      refine ⟨⟨c, rest, String.toList_ofList, alpha⟩, by simpa using all, ?_, ?_⟩
      · intro same
        exact notDefine (by simpa using congrArg String.toList same)
      · intro same
        exact notExternal (by simpa using congrArg String.toList same)

theorem Cursor.named_readToken {cursor : Cursor} {c : Char} (h : cursor.ahead = some c) :
    (cursor.readToken c).1.Named := by
  unfold readToken
  split
  next alpha =>
    have alphanum : c.isAlphanum = true := by simp [Char.isAlphanum, alpha]
    have run : (cursor.takeWhile Char.isAlphanum).1 =
        c :: cursor.advance.text.takeWhile Char.isAlphanum := by
      rw [takeWhile_run, text_of_ahead h, List.takeWhile_cons_of_pos alphanum]
    refine Token.named_ofWord (c := c) (by rw [run]; rfl) alpha fun d hd => ?_
    rw [takeWhile_run] at hd
    exact List.all_eq_true.mp List.all_takeWhile d hd
  next =>
    intro name spelled
    split at spelled
    · cases spelled
    · cases spelled

theorem Cursor.forall_mem_tokens {P : Token → Prop} (cursor : Cursor)
    (h : ∀ (cursor : Cursor) (c : Char), cursor.ahead = some c → P (cursor.readToken c).1) :
    ∀ token ∈ cursor.tokens, P token := by
  fun_induction tokens cursor with
  | case1 => simp
  | case2 cursor c ahead step ih =>
    rintro token (_ | ⟨_, later⟩)
    · exact h _ c ahead
    · exact ih token later

end Formula
