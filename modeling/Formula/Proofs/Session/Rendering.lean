import Formula.Proofs.Lowering.Spelling
import Formula.Proofs.Session.Closed

/-! # Modules are told apart by their texts

Whatever sessions run over a module, its names stay words, so its text determines its
functions. The text is put together from those of its functions, which are found by their names.
-/

namespace Formula

open Ssa

namespace Ssa.Module

variable {m : Module} {name : String}

theorem function?_of_mem (distinct : (m.functions.map (·.name)).Nodup) {f : Function}
    (h : f ∈ m.functions) : m.function? f.name = some f := by
  obtain ⟨g, found⟩ : ∃ g, m.function? f.name = some g := by
    rw [function?, ← Option.isSome_iff_exists, List.find?_isSome]
    exact ⟨f, h, beq_self_eq_true _⟩
  have same := List.inj_on_of_nodup_map distinct (List.mem_of_find?_eq_some found) h
    (name_of_function? found)
  rw [found, same]

theorem Closed.toText_eq (h : m.Closed) :
    m.toText = "; ModuleID = '" ++ m.name ++ "'\n" ++
      String.join (m.functions.map fun f => "\n" ++ m.render f.name) := by
  have rendered : m.functions.map (fun f => "\n" ++ m.render f.name) =
      m.functions.map fun f => "\n" ++ f.toText := by
    apply List.map_congr_left
    intro f mem
    rw [render, function?_of_mem h.distinct mem, Option.map_some, Option.getD_some]
  unfold toText
  rw [rendered]

end Ssa.Module

theorem Construct.spelledAs_lowerAndReport {c : Construct} {table : OperatorTable} {m : Module}
    {name : String} (hc : c.WellFormed table) (idle : m.Idle) (hm : m.SpelledAs name) :
    (c.lowerAndReport m).2.SpelledAs name := by
  cases hl : c.lower m with
  | error cause m' =>
    obtain rfl := lower_eq_error_of_idle hl idle
    simpa only [lowerAndReport, hl] using hm
  | ok callable m' =>
    simp only [lowerAndReport, hl]
    cases hc with
    | external spelled args =>
      exact Prototype.spelledAs_lower hl hm spelled.isWord fun arg mem => (args arg mem).isWord
    | definition spelled args body =>
      refine Definition.spelledAs_lower hl hm ⟨spelled.isWord, ?_, ?_⟩
      · exact fun arg mem => (args arg mem).isWord
      · exact fun call mem => (body.isName_of_mem_calls call mem).isWord
    | expression =>
      have erased := Definition.erase_lower_anonymous hl
      change (m'.erase callable).SpelledAs name
      rw [erased, idle.abandonBody_eq]
      exact hm

namespace Session

def HoldsSpelled (name : String) (target : Option Module) : Prop :=
  ∃ m, target = some m ∧ m.Closed ∧ m.SpelledAs name

variable {S S' : Type} [Sink S] [Sink S']

theorem holdsSpelled_of_mem_all {table : OperatorTable} {source : Cursor} {item : Item}
    {name : String} (h : item ∈ Item.all table source.tokens) {target : Option Module}
    (held : HoldsSpelled name target) : HoldsSpelled name (item.handle target).2 := by
  obtain ⟨m, rfl, closed, spelled⟩ := held
  obtain ⟨m', kept, closed'⟩ := holdsClosed_of_mem_all h ⟨m, rfl, closed⟩
  refine ⟨m', kept, closed', ?_⟩
  cases item with
  | separator | fault =>
    obtain rfl := Option.some.inj kept
    exact spelled
  | construct c =>
    obtain rfl := Option.some.inj kept
    exact Construct.spelledAs_lowerAndReport
      (Item.wellFormed_of_mem_all source.wellFormed_tokens h) closed.idle spelled

/-- The target after runs one after another, each with a sink and a prompt of its own. -/
def targetAfter (target : Option Module) :
    List (Session Module S × OperatorTable × Cursor) → Option Module
  | [] => target
  | (session, table, source) :: rest =>
    targetAfter (({ session with target }).run table source).state.target rest

theorem holdsSpelled_targetAfter {name : String} {target : Option Module}
    (h : HoldsSpelled name target) (runs : List (Session Module S × OperatorTable × Cursor)) :
    HoldsSpelled name (targetAfter target runs) := by
  induction runs generalizing target with
  | nil => exact h
  | cons run rest ih =>
    exact ih (target_run _ (fun _ mem _ => holdsSpelled_of_mem_all mem) h)

/--
Two modules that began without functions under one name have the same text only if they have
the same functions, whatever sessions ran over them. After the heading, the text has each
function as it is found by its name, behind a blank line.
-/
theorem toText_targetAfter (name : String)
    (runs : List (Session Module S × OperatorTable × Cursor))
    (runs' : List (Session Module S' × OperatorTable × Cursor)) :
    ∃ m m', targetAfter (some (.empty name)) runs = some m ∧
      targetAfter (some (.empty name)) runs' = some m' ∧
      (m.toText = m'.toText ↔ m.functions = m'.functions) ∧
      m.toText = "; ModuleID = '" ++ name ++ "'\n" ++
        String.join (m.functions.map fun f => "\n" ++ m.render f.name) ∧
      m'.toText = "; ModuleID = '" ++ name ++ "'\n" ++
        String.join (m'.functions.map fun f => "\n" ++ m'.render f.name) := by
  have begun : HoldsSpelled name (some (.empty name)) :=
    ⟨_, rfl, Module.closed_empty name, Module.spelledAs_empty name⟩
  obtain ⟨m, after, closed, named, spelled⟩ := holdsSpelled_targetAfter begun runs
  obtain ⟨m', after', closed', named', spelled'⟩ := holdsSpelled_targetAfter begun runs'
  refine ⟨m, m', after, after', ?_, ?_, ?_⟩
  · exact Module.toText_inj spelled spelled' (named.trans named'.symm)
  · rw [closed.toText_eq, named]
  · rw [closed'.toText_eq, named']

end Session

end Formula
