import Formula.Ssa.Basic
import Mathlib.Data.List.Nodup

/-! # Well-formed bodies

A body is in static single assignment form: every register is assigned once and before it
is read, and the truth value of a comparison is read only by the widening behind it. Code
that is put together from whole operations has this form as long as its names are distinct.
-/

namespace Formula.Ssa

def Value.register? : Value → Option String
  | constant _ => none
  | register name => some name

namespace Instruction

def result? : Instruction → Option String
  | arithmetic _ result _ _ | compare result _ _ | widen result _ | call result _ _ => some result
  | ret _ => none

def numbers : Instruction → List Value
  | arithmetic _ _ lhs rhs | compare _ lhs rhs => [lhs, rhs]
  | widen _ _ => []
  | call _ _ args => args
  | ret value => [value]

def flag? : Instruction → Option String
  | widen _ flag => some flag
  | _ => none

def reads (i : Instruction) : List String := i.numbers.filterMap Value.register? ++ i.flag?.toList

section Reads

variable {r result : String} {lhs rhs value : Value}

@[simp] theorem mem_reads_arithmetic {op : Arithmetic} :
    r ∈ (arithmetic op result lhs rhs).reads ↔
      lhs.register? = some r ∨ rhs.register? = some r := by
  simp [reads, numbers, flag?]

@[simp] theorem mem_reads_compare :
    r ∈ (compare result lhs rhs).reads ↔ lhs.register? = some r ∨ rhs.register? = some r := by
  simp [reads, numbers, flag?]

@[simp] theorem mem_reads_widen {flag : String} : r ∈ (widen result flag).reads ↔ r = flag := by
  simp [reads, numbers, flag?]

@[simp] theorem mem_reads_call {callee : String} {args : List Value} :
    r ∈ (call result callee args).reads ↔ ∃ arg ∈ args, arg.register? = some r := by
  simp [reads, numbers, flag?]

@[simp] theorem mem_reads_ret : r ∈ (ret value).reads ↔ value.register? = some r := by
  simp [reads, numbers, flag?]

end Reads

end Instruction

def results (code : List Instruction) : List String := code.filterMap Instruction.result?

@[simp] theorem results_nil : results [] = [] := rfl

@[simp] theorem results_arithmetic (op : Arithmetic) (result : String) (lhs rhs : Value)
    (code : List Instruction) :
    results (.arithmetic op result lhs rhs :: code) = result :: results code := rfl

@[simp] theorem results_compare (result : String) (lhs rhs : Value) (code : List Instruction) :
    results (.compare result lhs rhs :: code) = result :: results code := rfl

@[simp] theorem results_widen (result flag : String) (code : List Instruction) :
    results (.widen result flag :: code) = result :: results code := rfl

@[simp] theorem results_call (result callee : String) (args : List Value)
    (code : List Instruction) :
    results (.call result callee args :: code) = result :: results code := rfl

@[simp] theorem results_ret (value : Value) (code : List Instruction) :
    results (.ret value :: code) = results code := rfl

@[simp] theorem results_append (before after : List Instruction) :
    results (before ++ after) = results before ++ results after := List.filterMap_append

/-- The static single assignment form of a body over the given parameters. -/
structure WellFormed (params : List String) (body : List Instruction) : Prop where
  /-- The last instruction returns, and every other one assigns a register. -/
  returns : ∃ init value, body = init ++ [.ret value] ∧ ∀ i ∈ init, ∃ r, i.result? = some r
  distinct : (params ++ results body).Nodup
  /-- What an instruction reads was assigned before it. -/
  defined : ∀ before i after, body = before ++ i :: after →
    ∀ r ∈ i.reads, r ∈ params ++ results before
  /-- The instruction behind a comparison widens its result, which no other one reads. -/
  flags : ∀ before flag lhs rhs after, body = before ++ .compare flag lhs rhs :: after →
    ∃ wide rest, after = .widen wide flag :: rest ∧
      ∀ i ∈ before ++ .compare flag lhs rhs :: rest, flag ∉ i.reads
  /-- Only the result of the comparison before it is widened. -/
  widened : ∀ before wide flag after, body = before ++ .widen wide flag :: after →
    ∃ init lhs rhs, before = init ++ [.compare flag lhs rhs]

def Value.Known (value : Value) (known : List String) : Prop :=
  ∀ r, value.register? = some r → r ∈ known

theorem Value.Known.mono {value : Value} {known more : List String} (h : value.Known known)
    (hs : known ⊆ more) : value.Known more := fun r hr => hs (h r hr)

theorem Value.Known.unread {value : Value} {known : List String} (h : value.Known known)
    {r : String} (hr : r ∉ known) : value.register? ≠ some r := fun hv => hr (h r hv)

theorem Value.known_constant (x : Binary64) (known : List String) : (constant x).Known known := by
  simp [Known, register?]

theorem Value.known_register {r : String} {known : List String} :
    (register r).Known known ↔ r ∈ known := by
  simp [Known, register?]

/-- Code of whole operations, with the registers that hold numbers before and after it. -/
inductive Block : List String → List Instruction → List String → Prop where
  | nil (known : List String) : Block known [] known
  | arithmetic {known last : List String} {code : List Instruction} {op : Arithmetic}
      {result : String} {lhs rhs : Value} : lhs.Known known → rhs.Known known →
      Block (result :: known) code last → Block known (.arithmetic op result lhs rhs :: code) last
  | comparison {known last : List String} {code : List Instruction} {flag wide : String}
      {lhs rhs : Value} : lhs.Known known → rhs.Known known → Block (wide :: known) code last →
      Block known (.compare flag lhs rhs :: .widen wide flag :: code) last
  | call {known last : List String} {code : List Instruction} {result callee : String}
      {args : List Value} : (∀ arg ∈ args, arg.Known known) →
      Block (result :: known) code last → Block known (.call result callee args :: code) last

namespace Block

variable {known middle last : List String} {code before after : List Instruction}

theorem append (h : Block known before middle) (h' : Block middle after last) :
    Block known (before ++ after) last := by
  induction h with
  | nil => exact h'
  | arithmetic hl hr _ ih => exact .arithmetic hl hr (ih h')
  | comparison hl hr _ ih => exact .comparison hl hr (ih h')
  | call ha _ ih => exact .call ha (ih h')

theorem subset (h : Block known code last) : known ⊆ last := by
  induction h with
  | nil => exact fun _ h => h
  | arithmetic _ _ _ ih | comparison _ _ _ ih | call _ _ ih =>
    exact fun r hr => ih (List.mem_cons_of_mem _ hr)

theorem assigns (h : Block known code last) :
    ∀ i ∈ code, ∃ r, i.result? = some r := by
  induction h with
  | nil => simp
  | arithmetic _ _ _ ih | comparison _ _ _ ih | call _ _ ih => simpa [Instruction.result?] using ih

theorem unread (h : Block known code last) {r : String} (hk : r ∉ known) (hr : r ∉ results code) :
    (∀ i ∈ code, r ∉ i.reads) ∧ r ∉ last := by
  induction h with
  | nil => simpa using hk
  | arithmetic hl hr' _ ih =>
    simp only [results_arithmetic, List.mem_cons, not_or] at hr
    obtain ⟨later, gone⟩ := ih (by simp [hr.1, hk]) hr.2
    simpa [hl.unread hk, hr'.unread hk, gone] using later
  | comparison hl hr' _ ih =>
    simp only [results_compare, results_widen, List.mem_cons, not_or] at hr
    obtain ⟨later, gone⟩ := ih (by simp [hr.2.1, hk]) hr.2.2
    simpa [hl.unread hk, hr'.unread hk, hr.1, gone] using later
  | call ha _ ih =>
    simp only [results_call, List.mem_cons, not_or] at hr
    obtain ⟨later, gone⟩ := ih (by simp [hr.1, hk]) hr.2
    have args := fun arg h => (ha arg h).unread hk
    simpa [args, gone] using And.intro args later

/-- What code of whole operations reads was known before, or assigned by an earlier instruction. -/
theorem defined (h : Block known code last) {assigned : List String} (hk : known ⊆ assigned)
    {i : Instruction} (hs : code = before ++ i :: after) {r : String} (hr : r ∈ i.reads) :
    r ∈ assigned ++ results before := by
  induction h generalizing before assigned with
  | nil => simp at hs
  | @arithmetic _ _ _ _ result _ _ hl hr' _ ih =>
    rcases before with _ | ⟨_, before⟩
    · obtain ⟨rfl, rfl⟩ := List.cons.inj hs
      rcases Instruction.mem_reads_arithmetic.mp hr with h | h
      · simpa using hk (hl r h)
      · simpa using hk (hr' r h)
    · simp only [List.cons_append, List.cons.injEq] at hs
      obtain ⟨rfl, hs⟩ := hs
      simpa [or_left_comm] using ih (List.cons_subset_cons result hk) hs
  | @comparison _ _ _ flag wide _ _ hl hr' _ ih =>
    rcases before with _ | ⟨_, _ | ⟨_, before⟩⟩
    · obtain ⟨rfl, rfl⟩ := List.cons.inj hs
      rcases Instruction.mem_reads_compare.mp hr with h | h
      · simpa using hk (hl r h)
      · simpa using hk (hr' r h)
    · simp only [List.cons_append, List.nil_append, List.cons.injEq] at hs
      obtain ⟨rfl, rfl, rfl⟩ := hs
      simpa using Or.inr (Instruction.mem_reads_widen.mp hr)
    · simp only [List.cons_append, List.cons.injEq] at hs
      obtain ⟨rfl, rfl, hs⟩ := hs
      have := ih (List.cons_subset_cons wide hk) hs
      simp only [results_compare, results_widen, List.mem_append, List.mem_cons] at this ⊢
      tauto
  | @call _ _ _ result _ _ ha _ ih =>
    rcases before with _ | ⟨_, before⟩
    · obtain ⟨rfl, rfl⟩ := List.cons.inj hs
      obtain ⟨arg, h, h'⟩ := Instruction.mem_reads_call.mp hr
      simpa using hk (ha arg h r h')
    · simp only [List.cons_append, List.cons.injEq] at hs
      obtain ⟨rfl, hs⟩ := hs
      simpa [or_left_comm] using ih (List.cons_subset_cons result hk) hs

theorem comparison_split (h : Block known code last) {flag : String} {lhs rhs : Value}
    (hs : code = before ++ .compare flag lhs rhs :: after) :
    ∃ wide rest middle, after = .widen wide flag :: rest ∧ Block known before middle ∧
      lhs.Known middle ∧ rhs.Known middle ∧ Block (wide :: middle) rest last := by
  induction h generalizing before with
  | nil => simp at hs
  | arithmetic hl hr _ ih =>
    rcases before with _ | ⟨_, before⟩
    · simp at hs
    · simp only [List.cons_append, List.cons.injEq] at hs
      obtain ⟨rfl, hs⟩ := hs
      obtain ⟨wide, rest, middle, ha, hb, h⟩ := ih hs
      exact ⟨wide, rest, middle, ha, .arithmetic hl hr hb, h⟩
  | @comparison _ _ _ _ wide _ _ hl hr hb ih =>
    rcases before with _ | ⟨_, _ | ⟨_, before⟩⟩
    · simp only [List.nil_append, List.cons.injEq, Instruction.compare.injEq] at hs
      obtain ⟨⟨rfl, rfl, rfl⟩, rfl⟩ := hs
      exact ⟨wide, _, _, rfl, .nil _, hl, hr, hb⟩
    · simp at hs
    · simp only [List.cons_append, List.cons.injEq] at hs
      obtain ⟨rfl, rfl, hs⟩ := hs
      obtain ⟨wide, rest, middle, ha, hb, h⟩ := ih hs
      exact ⟨wide, rest, middle, ha, .comparison hl hr hb, h⟩
  | call ha _ ih =>
    rcases before with _ | ⟨_, before⟩
    · simp at hs
    · simp only [List.cons_append, List.cons.injEq] at hs
      obtain ⟨rfl, hs⟩ := hs
      obtain ⟨wide, rest, middle, ha', hb, h⟩ := ih hs
      exact ⟨wide, rest, middle, ha', .call ha hb, h⟩

theorem widened_split (h : Block known code last) {wide flag : String}
    (hs : code = before ++ .widen wide flag :: after) :
    ∃ init lhs rhs, before = init ++ [.compare flag lhs rhs] := by
  induction h generalizing before with
  | nil => simp at hs
  | arithmetic _ _ _ ih | call _ _ ih =>
    rcases before with _ | ⟨j, before⟩
    · simp at hs
    · obtain ⟨init, lhs, rhs, rfl⟩ := ih (List.cons.inj hs).2
      exact ⟨j :: init, lhs, rhs, rfl⟩
  | comparison _ _ _ ih =>
    rcases before with _ | ⟨j, _ | ⟨k, before⟩⟩
    · simp at hs
    · simp only [List.cons_append, List.nil_append, List.cons.injEq, Instruction.widen.injEq] at hs
      obtain ⟨rfl, ⟨rfl, rfl⟩, rfl⟩ := hs
      exact ⟨[], _, _, rfl⟩
    · simp only [List.cons_append, List.cons.injEq] at hs
      obtain ⟨init, lhs, rhs, rfl⟩ := ih hs.2.2
      exact ⟨j :: k :: init, lhs, rhs, rfl⟩

theorem last_subset (h : Block known code last) : last ⊆ known ++ results code := by
  intro r hr
  by_contra hn
  simp only [List.mem_append, not_or] at hn
  exact (h.unread hn.1 hn.2).2 hr

theorem split_return {i : Instruction} {value : Value}
    (h : code ++ [.ret value] = before ++ i :: after) :
    (before = code ∧ i = .ret value ∧ after = []) ∨
      ∃ rest, after = rest ++ [.ret value] ∧ code = before ++ i :: rest := by
  rcases List.eq_nil_or_concat' after with rfl | ⟨rest, j, rfl⟩
  · obtain ⟨rfl, hi⟩ := List.append_inj' h rfl
    exact .inl ⟨rfl, (List.singleton_inj.mp hi).symm, rfl⟩
  · rw [← List.cons_append, ← List.append_assoc] at h
    obtain ⟨rfl, hj⟩ := List.append_inj' h rfl
    exact .inr ⟨rest, by rw [List.singleton_inj.mp hj], rfl⟩

theorem wellFormed {params : List String} {value : Value} (h : Block params code last)
    (hv : value.Known last) (hn : (params ++ results code).Nodup) :
    WellFormed params (code ++ [.ret value]) where
  returns := ⟨code, value, rfl, h.assigns⟩
  distinct := by simpa using hn
  defined := by
    intro before i after hs r hr
    rcases split_return hs with ⟨rfl, rfl, rfl⟩ | ⟨rest, rfl, hc⟩
    · exact h.last_subset (hv r (Instruction.mem_reads_ret.mp hr))
    · exact h.defined (List.Subset.refl _) hc hr
  flags := by
    intro before flag lhs rhs after hs
    rcases split_return hs with ⟨_, hi, _⟩ | ⟨rest, rfl, hc⟩
    · cases hi
    obtain ⟨wide, rest, middle, rfl, hb, hl, hr, ha⟩ := h.comparison_split hc
    subst hc
    -- The flag is distinct from the parameters and from all other results.
    simp only [results_append, results_compare, results_widen] at hn
    obtain ⟨earlier, gone⟩ := hb.unread (r := flag) (by grind) (by grind)
    obtain ⟨later, gone'⟩ := ha.unread (r := flag) (by grind) (by grind)
    refine ⟨wide, rest ++ [.ret value], rfl, fun i hi => ?_⟩
    simp only [List.mem_append, List.mem_cons, List.not_mem_nil, or_false] at hi
    rcases hi with hi | rfl | hi | rfl
    · exact earlier i hi
    · simp [hl.unread gone, hr.unread gone]
    · exact later i hi
    · simp [hv.unread gone']
  widened := by
    intro before wide flag after hs
    rcases split_return hs with ⟨_, hi, _⟩ | ⟨rest, rfl, hc⟩
    · cases hi
    · exact h.widened_split hc

end Block

end Formula.Ssa
