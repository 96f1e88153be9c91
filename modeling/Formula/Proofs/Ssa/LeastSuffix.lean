import Formula.Proofs.Lookup
import Formula.Proofs.Ssa.FreshNames
import Mathlib.Data.Nat.Find
import Mathlib.Data.List.Nodup
import Mathlib.Data.List.Perm.Subperm

/-! # Remembered suffixes

A supply goes on from the last suffix of a base instead of looking at every suffix again. The
suffixes up to the remembered one are in use, also where another base has made the same names,
so no free name is passed over: the names are those of a supply without memory, which gives the
base itself or the base with the least suffix that is free.
-/

namespace Formula.Ssa.NameSupply

variable {supply : NameSupply} {used : List String} {base name : String}

/-- The names that are tried for a base whose last suffix is given, one in each round. -/
def candidate (base : String) (last : Nat) : Nat → String
  | 0 => base
  | round + 1 => base ++ toString (last + round + 1)

theorem base_ne_suffixed (base : String) (suffix : Nat) : base ≠ base ++ toString suffix := by
  intro same
  have lengths := congrArg String.length same
  have nonempty := List.length_pos_of_ne_nil (Nat.toDigits_ne_nil (n := suffix) (b := 10))
  simp only [String.length_append, Nat.toString_eq_ofList_toDigits, String.length_ofList] at lengths
  omega

theorem candidate_injective (base : String) (last : Nat) :
    Function.Injective (candidate base last) := by
  intro i j same
  cases i with
  | zero =>
    cases j with
    | zero => rfl
    | succ j => exact absurd same (base_ne_suffixed base _)
  | succ i =>
    cases j with
    | zero => exact absurd same.symm (base_ne_suffixed base _)
    | succ j =>
      have := suffixed_inj.mp same
      omega

theorem le_length_of_injective {f : Nat → String} {n : Nat} (distinct : Function.Injective f)
    (within : ∀ i < n, f i ∈ used) : n ≤ used.length := by
  have nodup : ((List.range n).map f).Nodup := List.nodup_range.map distinct
  have subset : (List.range n).map f ⊆ used := by
    intro name mem
    obtain ⟨i, hi, rfl⟩ := List.mem_map.mp mem
    exact within i (List.mem_range.mp hi)
  simpa using (nodup.subperm subset).length_le

theorem mem_of_lt_firstFree {pool : List String} {suffix k : Nat} (low : suffix ≤ k)
    (high : k < firstFree pool base suffix) : base ++ toString k ∈ pool := by
  fun_induction firstFree pool base suffix with
  | case1 pool suffix taken ih =>
    rcases Nat.eq_or_lt_of_le low with rfl | later
    · exact taken
    · exact List.mem_of_mem_erase (ih later high)
  | case2 pool suffix free => exact absurd high (Nat.not_lt.mpr low)

/-- The search for a name, round by round, and the suffix that is remembered after it. -/
theorem exists_rounds (supply : NameSupply) (base : String) :
    ∃ rounds, (∀ i < rounds, candidate base (supply.lastSuffix base) i ∈ supply.used) ∧
      candidate base (supply.lastSuffix base) rounds ∉ supply.used ∧
      (supply.fresh base).1 = candidate base (supply.lastSuffix base) rounds ∧
      (supply.fresh base).2.lastSuffix base = supply.lastSuffix base + rounds := by
  by_cases taken : base ∈ supply.used
  · have start := le_firstFree supply.used base (supply.lastSuffix base + 1)
    obtain ⟨round, found⟩ := Nat.exists_eq_add_of_le start
    have name : candidate base (supply.lastSuffix base) (round + 1) =
        base ++ toString (firstFree supply.used base (supply.lastSuffix base + 1)) := by
      rw [found, candidate]
      congr 2
      omega
    refine ⟨round + 1, fun i hi => ?_, ?_, ?_, ?_⟩
    · cases i with
      | zero => exact taken
      | succ i =>
        have before : supply.lastSuffix base + i + 1 <
            firstFree supply.used base (supply.lastSuffix base + 1) := by omega
        exact mem_of_lt_firstFree (by omega) before
    · rw [name]
      exact firstFree_not_mem _ _ _
    · rw [fresh, if_pos taken, name]
    · rw [fresh, if_pos taken]
      simp only [lastSuffix, List.lookup_cons_self, Option.getD_some]
      exact found.trans (by rw [lastSuffix]; omega)
  · refine ⟨0, fun i hi => absurd hi (Nat.not_lt_zero i), taken, ?_, ?_⟩
    · rw [fresh, if_neg taken, candidate]
    · rw [fresh, if_neg taken, lastSuffix, lastSuffix, Nat.add_zero]

theorem lastSuffix_fresh_of_ne {other : String} (h : other ≠ base) :
    (supply.fresh base).2.lastSuffix other = supply.lastSuffix other := by
  unfold fresh
  split
  · have distinct : (other == base) = false := beq_eq_false_iff_ne.mpr h
    simp only [lastSuffix, List.lookup_cons, distinct, lookup_filter_of_ne h]
  · rfl

/-- Of each base, every suffix up to the remembered one is in use. -/
def Filled (supply : NameSupply) : Prop :=
  ∀ base k, 0 < k → k ≤ supply.lastSuffix base → base ++ toString k ∈ supply.used

theorem filled_empty : empty.Filled := fun _ _ positive le => absurd le (Nat.not_le.mpr positive)

theorem Filled.fresh (h : supply.Filled) (base : String) : (supply.fresh base).2.Filled := by
  intro other k positive le
  rw [used_fresh]
  by_cases same : other = base
  · subst same
    obtain ⟨rounds, vain, -, name, last⟩ := supply.exists_rounds other
    rw [last] at le
    rcases Nat.lt_or_ge (supply.lastSuffix other) k with later | earlier
    · -- The suffixes behind the remembered one have been tried, the last of them with success.
      obtain ⟨i, rfl⟩ := Nat.exists_eq_add_of_lt later
      rcases Nat.eq_or_lt_of_le (show i + 1 ≤ rounds by omega) with rfl | before
      · exact name ▸ List.mem_cons_self
      · exact List.mem_cons_of_mem _ (vain (i + 1) before)
    · exact List.mem_cons_of_mem _ (h other k positive earlier)
  · rw [lastSuffix_fresh_of_ne same] at le
    exact List.mem_cons_of_mem _ (h other k positive le)

/-- The base and its suffixes are distinct, so that neither the search nor the remembered suffix
gets further than there are names in use. -/
theorem Filled.lastSuffix_add_le (h : supply.Filled) {rounds : Nat}
    (vain : ∀ i < rounds, candidate base (supply.lastSuffix base) i ∈ supply.used) :
    supply.lastSuffix base + rounds ≤ supply.used.length := by
  cases rounds with
  | zero =>
    have distinct : Function.Injective fun i => candidate base 0 (i + 1) :=
      (candidate_injective base 0).comp Nat.succ_injective
    refine le_length_of_injective distinct fun i hi => ?_
    exact h base (0 + i + 1) (Nat.succ_pos _) (by omega)
  | succ round =>
    refine le_length_of_injective (candidate_injective base 0) fun i hi => ?_
    cases i with
    | zero => exact vain 0 (Nat.succ_pos round)
    | succ i =>
      rcases Nat.lt_or_ge i (supply.lastSuffix base) with earlier | later
      · exact h base (0 + i + 1) (Nat.succ_pos _) (by omega)
      · obtain ⟨j, rfl⟩ := Nat.exists_eq_add_of_le later
        have tried := vain (j + 1) (by omega)
        rwa [candidate, ← Nat.zero_add (supply.lastSuffix base + j)] at tried

theorem Filled.freshAll (h : supply.Filled) (bases : List String) :
    (supply.freshAll bases).2.Filled := by
  induction bases generalizing supply with
  | nil => exact h
  | cons base rest ih => exact ih (h.fresh base)

theorem exists_free_suffix (used : List String) (base : String) :
    ∃ k, 0 < k ∧ base ++ toString k ∉ used :=
  ⟨firstFree used base 1, le_firstFree used base 1, firstFree_not_mem used base 1⟩

/-- The name that a base gets from a supply without memory: the used names are all it knows. -/
def plainName (used : List String) (base : String) : String :=
  if base ∈ used then base ++ toString (Nat.find (exists_free_suffix used base)) else base

def plainNames (used : List String) : List String → List String
  | [] => []
  | base :: rest => plainName used base :: plainNames (used ++ [plainName used base]) rest

theorem Filled.fresh_eq_plainName (h : supply.Filled)
    (same : ∀ name, name ∈ used ↔ name ∈ supply.used) (base : String) :
    (supply.fresh base).1 = plainName used base := by
  obtain ⟨rounds, vain, free, name, -⟩ := supply.exists_rounds base
  rw [name, plainName]
  cases rounds with
  | zero =>
    have unused : base ∉ used := mt (same _).mp free
    rw [if_neg unused, candidate]
  | succ round =>
    have taken : base ∈ used := (same _).mpr (vain 0 (Nat.succ_pos round))
    have least : Nat.find (exists_free_suffix used base) = supply.lastSuffix base + round + 1 := by
      refine (Nat.find_eq_iff _).mpr ⟨⟨Nat.succ_pos _, mt (same _).mp free⟩, ?_⟩
      rintro k lt ⟨positive, unused⟩
      refine unused ((same _).mpr ?_)
      rcases Nat.lt_or_ge (supply.lastSuffix base) k with later | earlier
      · obtain ⟨i, rfl⟩ := Nat.exists_eq_add_of_lt later
        exact vain (i + 1) (by omega)
      · exact h base k positive earlier
    rw [if_pos taken, least, candidate]

theorem Filled.freshAll_eq_plainNames (h : supply.Filled)
    (same : ∀ name, name ∈ used ↔ name ∈ supply.used) (bases : List String) :
    (supply.freshAll bases).1 = plainNames used bases := by
  induction bases generalizing supply used with
  | nil => rfl
  | cons base rest ih =>
    have name := h.fresh_eq_plainName same base
    rw [freshAll_cons, plainNames, ← name, ih (h.fresh base)]
    intro other
    rw [used_fresh, List.mem_append, List.mem_singleton, same, List.mem_cons, or_comm]

theorem freshAll_concat (supply : NameSupply) (bases : List String) (base : String) :
    supply.freshAll (bases ++ [base]) =
      ((supply.freshAll bases).1 ++ [((supply.freshAll bases).2.fresh base).1],
        ((supply.freshAll bases).2.fresh base).2) := by
  induction bases generalizing supply with
  | nil => rfl
  | cons first rest ih => rw [List.cons_append, freshAll_cons, ih, freshAll_cons, List.cons_append]

/-- After any requests, the next search ends, and finds the new name that a plain supply gives. No
suffix exceeds the number of names given before. -/
theorem freshAll_plain (bases : List String) (base : String) :
    ∃ given supply name after, empty.freshAll bases = (given, supply) ∧
      supply.fresh base = (name, after) ∧
      empty.freshAll (bases ++ [base]) = (given ++ [name], after) ∧
      given = plainNames [] bases ∧ name = plainName given base ∧ name ∉ given ∧
      ∃ rounds, supply.lastSuffix base + rounds ≤ given.length ∧
        (∀ i < rounds, candidate base (supply.lastSuffix base) i ∈ given) ∧
        name = candidate base (supply.lastSuffix base) rounds ∧
        after.lastSuffix base = supply.lastSuffix base + rounds := by
  have used (name : String) :
      name ∈ (empty.freshAll bases).1 ↔ name ∈ (empty.freshAll bases).2.used := by
    simp [used_freshAll, empty]
  have filled := filled_empty.freshAll bases
  obtain ⟨rounds, vain, free, name, last⟩ := (empty.freshAll bases).2.exists_rounds base
  have tried := fun i hi => (used _).mpr (vain i hi)
  have bound : (empty.freshAll bases).2.lastSuffix base + rounds ≤
      (empty.freshAll bases).1.length := by
    simpa [used_freshAll, empty] using filled.lastSuffix_add_le vain
  have new : ((empty.freshAll bases).2.fresh base).1 ∉ (empty.freshAll bases).1 := by
    rw [name, used]
    exact free
  exact ⟨_, _, _, _, rfl, rfl, freshAll_concat empty bases base,
    filled_empty.freshAll_eq_plainNames (by simp [empty]) bases,
    filled.fresh_eq_plainName used base, new, rounds, bound, tried, name, last⟩

/-- The names of two bases get in each other's way: `x1` is a suffixed `x`. -/
example : (empty.freshAll ["x", "x", "x1", "x", "x1"]).1 = ["x", "x1", "x11", "x2", "x12"] := by
  decide +kernel

end Formula.Ssa.NameSupply
