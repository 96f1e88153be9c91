import Formula.Ssa.Module

/-! # Names are handed out once

A fresh name lies outside its supply and joins it, whatever base it was asked for, so the
names of one function stay distinct.
-/

namespace Formula.Ssa.NameSupply

theorem suffixed_inj {base : String} {i j : Nat} :
    base ++ toString i = base ++ toString j ↔ i = j := by
  constructor
  · intro h
    have digits : Nat.toDigits 10 i = Nat.toDigits 10 j := by
      simpa [Nat.toString_eq_ofList_toDigits] using congrArg String.toList h
    rw [← Nat.ofDigitChars_ten_toDigits (n := i), digits, Nat.ofDigitChars_ten_toDigits]
  · rintro rfl
    rfl

theorem le_firstFree (pool : List String) (base : String) (suffix : Nat) :
    suffix ≤ firstFree pool base suffix := by
  fun_induction firstFree pool base suffix with
  | case1 pool suffix _ ih => exact Nat.le_trans (Nat.le_succ _) ih
  | case2 => exact Nat.le_refl _

theorem firstFree_not_mem (pool : List String) (base : String) (suffix : Nat) :
    base ++ toString (firstFree pool base suffix) ∉ pool := by
  fun_induction firstFree pool base suffix with
  | case1 pool suffix _ ih =>
    intro h
    -- The suffix found lies behind the erased one, so erasing has not hidden its name.
    have later := le_firstFree (pool.erase (base ++ toString suffix)) base (suffix + 1)
    refine ih ((List.mem_erase_of_ne fun same => ?_).mpr h)
    have := suffixed_inj.mp same
    omega
  | case2 pool suffix h => exact h

theorem fresh_not_mem (supply : NameSupply) (base : String) :
    (supply.fresh base).1 ∉ supply.used := by
  unfold fresh
  split
  · exact firstFree_not_mem _ _ _
  next h => exact h

@[simp] theorem used_fresh (supply : NameSupply) (base : String) :
    (supply.fresh base).2.used = (supply.fresh base).1 :: supply.used := by
  unfold fresh
  split <;> rfl

theorem nodup_used_fresh {supply : NameSupply} (h : supply.used.Nodup) (base : String) :
    (supply.fresh base).2.used.Nodup := by
  rw [used_fresh]
  exact List.nodup_cons.mpr ⟨fresh_not_mem supply base, h⟩

/-- A name of a base: the base itself, or the base with a suffix. -/
def NameOf (base name : String) : Prop :=
  name = base ∨ ∃ suffix : Nat, name = base ++ toString suffix

theorem nameOf_fresh (supply : NameSupply) (base : String) : NameOf base (supply.fresh base).1 := by
  unfold fresh
  split
  · exact .inr ⟨_, rfl⟩
  · exact .inl rfl

theorem mem_used_fresh (supply : NameSupply) (base : String) :
    base ∈ (supply.fresh base).2.used := by
  unfold fresh
  split
  next h => exact List.mem_cons_of_mem _ h
  · exact List.mem_cons_self

theorem isDigit_of_mem_suffix {suffix : Nat} {c : Char} (h : c ∈ (toString suffix).toList) :
    c.isDigit = true := by
  rw [Nat.toString_eq_ofList_toDigits, String.toList_ofList] at h
  exact Nat.isDigit_of_mem_toDigits (by decide) (by decide) h

/-- A name that does not end in a digit is its own base. -/
theorem NameOf.eq_base {base name : String} {c : Char} (h : NameOf base name)
    (last : name.toList.getLast? = some c) (hc : c.isDigit = false) : name = base := by
  rcases h with rfl | ⟨suffix, rfl⟩
  · rfl
  · have nonempty : (toString suffix).toList ≠ [] := by simp [Nat.toDigits_ne_nil]
    rw [String.toList_append, List.getLast?_append, List.getLast?_eq_some_getLast nonempty,
      Option.some_or] at last
    obtain rfl := Option.some.inj last
    rw [isDigit_of_mem_suffix (List.getLast_mem nonempty)] at hc
    cases hc

theorem NameOf.isDigit_or_mem {base name : String} {c : Char} (h : NameOf base name)
    (hc : c ∈ name.toList) : c ∈ base.toList ∨ c.isDigit = true := by
  rcases h with rfl | ⟨suffix, rfl⟩
  · exact .inl hc
  · rw [String.toList_append, List.mem_append] at hc
    exact hc.imp_right isDigit_of_mem_suffix

theorem freshAll_cons (supply : NameSupply) (base : String) (rest : List String) :
    supply.freshAll (base :: rest) =
      ((supply.fresh base).1 :: ((supply.fresh base).2.freshAll rest).1,
        ((supply.fresh base).2.freshAll rest).2) := rfl

@[simp] theorem length_freshAll (supply : NameSupply) (bases : List String) :
    (supply.freshAll bases).1.length = bases.length := by
  induction bases generalizing supply with
  | nil => rfl
  | cons base rest ih => simp [freshAll, ih]

theorem used_freshAll (supply : NameSupply) (bases : List String) :
    (supply.freshAll bases).2.used = (supply.freshAll bases).1.reverse ++ supply.used := by
  induction bases generalizing supply with
  | nil => rfl
  | cons base rest ih => simp [freshAll, ih]

theorem nodup_used_freshAll {supply : NameSupply} (h : supply.used.Nodup) (bases : List String) :
    (supply.freshAll bases).2.used.Nodup := by
  induction bases generalizing supply with
  | nil => exact h
  | cons base rest ih => exact ih (nodup_used_fresh h base)

theorem exists_nameOf_of_mem_freshAll {supply : NameSupply} {bases : List String} {name : String}
    (h : name ∈ (supply.freshAll bases).1) : ∃ base ∈ bases, NameOf base name := by
  induction bases generalizing supply with
  | nil => cases h
  | cons base rest ih =>
    rcases List.mem_cons.mp h with rfl | h
    · exact ⟨base, List.mem_cons_self, nameOf_fresh supply base⟩
    · obtain ⟨other, mem, named⟩ := ih h
      exact ⟨other, List.mem_cons_of_mem _ mem, named⟩

/-- Whoever gets a base first gets it as it is, so in the end all bases are in use. -/
theorem mem_used_freshAll {supply : NameSupply} {bases : List String} {base : String}
    (h : base ∈ bases) : base ∈ (supply.freshAll bases).2.used := by
  induction bases generalizing supply with
  | nil => cases h
  | cons first rest ih =>
    rcases List.mem_cons.mp h with rfl | h
    · have used := mem_used_fresh supply base
      rw [freshAll, used_freshAll]
      exact List.mem_append_right _ used
    · exact ih h

end Formula.Ssa.NameSupply
