import Formula.Proofs.Grammar.WellFormed
import Formula.Proofs.Lowering.RegisterNames
import Formula.Proofs.Ssa.Delimited

/-! # Lowering spells words

The names of a construct that a source can hold are words, and a name that is made from a word
is one. So whatever is lowered from such constructs has words for all of its names.
-/

namespace Formula

open Ssa LoweringTarget

theorem IsName.isWord {name : String} (h : IsName name) : IsWord name := h.alphanumeric

theorem Ssa.NameSupply.NameOf.isWord {base name : String} (h : NameOf base name)
    (hb : IsWord base) : IsWord name := by
  intro c hc
  rcases h.isDigit_or_mem hc with inner | digit
  · exact hb c inner
  · simp [Char.isAlphanum, digit]

theorem Ssa.Generated.isWord {register : String} (h : Generated register) : IsWord register := by
  obtain ⟨base, mem, named⟩ := h
  have words : ∀ base ∈ registerBases, base.toList.all Char.isAlphanum = true := by decide
  exact named.isWord (List.all_eq_true.mp (words base mem))

theorem Prototype.isWord_of_mem_slots {p : Prototype} (h : ∀ arg ∈ p.args, IsWord arg)
    {slot : String} (mem : slot ∈ p.slots.1) : IsWord slot := by
  obtain ⟨arg, among, named⟩ := exists_nameOf_of_mem_slots mem
  exact named.isWord (h arg among)

namespace Definition

/-- The names in the prototype and of the functions that the body calls are words. -/
structure Spelled (d : Definition) : Prop where
  name : IsWord d.prototype.name
  args : ∀ arg ∈ d.prototype.args, IsWord arg
  calls : ∀ call ∈ d.body.calls, IsWord call.1

variable {d : Definition} {value : Value} {code : List Instruction} {names : NameSupply}

/-- A body reads parameters and results only, and calls what its expression calls. -/
theorem Spelled.function (h : d.Spelled)
    (emitted : d.body.emit d.prototype.scope d.prototype.slots.2 = some (value, code, names)) :
    (Function.mk d.prototype.name d.prototype.slots.1 (some (code ++ [.ret value]))).Spelled := by
  obtain ⟨known, block, held⟩ :=
    d.body.emit_blocks (fun _ _ => Prototype.known_of_lookup) _ _ _ _ emitted
  have register {r : String} (mem : r ∈ d.prototype.slots.1 ++ results code) : IsWord r := by
    rcases List.mem_append.mp mem with param | result
    · exact Prototype.isWord_of_mem_slots h.args param
    · exact (d.body.emit_generates _ _ _ _ emitted r result).isWord
  refine ⟨h.name, fun _ => Prototype.isWord_of_mem_slots h.args, fun i mem => ?_⟩
  rcases List.mem_append.mp mem with inner | last
  · obtain ⟨before, after, split⟩ := List.append_of_mem inner
    constructor
    · intro r assigned
      exact register (List.mem_append_right _ (List.mem_filterMap.mpr ⟨i, inner, assigned⟩))
    · intro r read
      have earlier := block.defined (List.Subset.refl _) split read
      apply register
      rw [split, results_append, ← List.append_assoc]
      exact List.mem_append_left _ earlier
    · intro call made
      have among : call ∈ code.filterMap Instruction.call? :=
        List.mem_filterMap.mpr ⟨i, inner, made⟩
      rw [d.body.emit_makes _ _ _ _ emitted] at among
      exact h.calls call among
  · obtain rfl := List.mem_singleton.mp last
    constructor
    · exact fun r assigned => nomatch assigned
    · intro r read
      exact register (block.last_subset (held r (Instruction.mem_reads_ret.mp read)))
    · exact fun call made => nomatch made

end Definition

namespace Ssa.Module

variable {m : Module}

structure SpelledAs (m : Module) (name : String) : Prop where
  name : m.name = name
  functions : m.Spelled

theorem spelledAs_empty (name : String) : (empty name).SpelledAs name := ⟨rfl, nofun⟩

theorem Spelled.append {f : Function} (h : m.Spelled) (hf : f.Spelled) :
    Spelled { m with functions := m.functions ++ [f] } := by
  intro g mem
  rcases List.mem_append.mp mem with old | new
  · exact h g old
  · obtain rfl := List.mem_singleton.mp new
    exact hf

theorem Spelled.define {name : String} {params : List String} {body : List Instruction}
    (h : m.Spelled) (hf : (Function.mk name params (some body)).Spelled) :
    Spelled { m with functions := define name params body m.functions } := by
  intro g mem
  rcases mem_define mem with old | rfl
  · exact h g old
  · exact hf

end Ssa.Module

variable {m m' : Module} {callable name : String}

theorem Prototype.spelledAs_declareOrFind {p : Prototype}
    (h : p.declareOrFind m = .ok callable m') (hm : m.SpelledAs name) (hn : IsWord p.name)
    (args : ∀ arg ∈ p.args, IsWord arg) : m'.SpelledAs name := by
  obtain ⟨-, ⟨_, _, _, _, rfl⟩ | ⟨-, rfl⟩⟩ := declareOrFind_eq_ok h
  · exact hm
  · have declaration : p.declaration.Spelled :=
      ⟨hn, fun _ mem => isWord_of_mem_slots args mem, fun _ mem => nomatch mem⟩
    exact ⟨hm.name, hm.functions.append declaration⟩

theorem Prototype.spelledAs_lower {p : Prototype} (h : p.lower m = .ok callable m')
    (hm : m.SpelledAs name) (hn : IsWord p.name) (args : ∀ arg ∈ p.args, IsWord arg) :
    m'.SpelledAs name := by
  unfold lower at h
  split at h
  · cases h
  · exact spelledAs_declareOrFind h hm hn args

theorem Definition.spelledAs_lower {d : Definition} (h : d.lower m = .ok callable m')
    (hm : m.SpelledAs name) (hd : d.Spelled) : m'.SpelledAs name := by
  obtain ⟨rfl, declared, value, code, names, found, emitted, -, rfl⟩ := lower_eq_ok h
  have begun := Prototype.spelledAs_declareOrFind found hm hd.name hd.args
  exact ⟨begun.name, begun.functions.define (hd.function emitted)⟩

end Formula
