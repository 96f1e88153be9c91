/-! # Lists of pairs

The first pair of a key is the one that is found. Taking out the pairs of one key hides that key
and no other, and where no key stands twice, every pair is found.
-/

namespace Formula

variable {α β : Type} [DecidableEq α] {key other : α}

theorem lookup_filter_of_ne (h : other ≠ key) (pairs : List (α × β)) :
    (pairs.filter (·.1 ≠ key)).lookup other = pairs.lookup other := by
  induction pairs with
  | nil => rfl
  | cons pair rest ih =>
    by_cases same : pair.1 = key
    · have distinct : (other == pair.1) = false := beq_eq_false_iff_ne.mpr (same ▸ h)
      rw [List.filter_cons_of_neg (by simpa using same), ih, List.lookup_cons, distinct]
    · rw [List.filter_cons_of_pos (by simpa using same), List.lookup_cons, ih, List.lookup_cons]

theorem lookup_filter_self (key : α) (pairs : List (α × β)) :
    (pairs.filter (·.1 ≠ key)).lookup key = none := by
  rw [List.lookup_eq_none_iff]
  intro pair mem
  have ne : pair.1 ≠ key := by simpa using (List.mem_filter.mp mem).2
  exact bne_iff_ne.mpr ne.symm

theorem lookup_of_mem {pairs : List (α × β)} (hn : (pairs.map (·.1)).Nodup) {pair : α × β}
    (h : pair ∈ pairs) : pairs.lookup pair.1 = some pair.2 := by
  obtain ⟨before, after, rfl⟩ := List.append_of_mem h
  refine List.lookup_eq_some_iff.mpr ⟨before, after, rfl, fun other ho => ?_⟩
  grind

theorem mem_iff_lookup {pairs : List (α × β)} (hn : (pairs.map (·.1)).Nodup) {value : β} :
    (key, value) ∈ pairs ↔ pairs.lookup key = some value := by
  constructor
  · exact fun mem => lookup_of_mem hn mem
  · intro found
    obtain ⟨before, after, rfl, -⟩ := List.lookup_eq_some_iff.mp found
    exact List.mem_append_right _ List.mem_cons_self

end Formula
