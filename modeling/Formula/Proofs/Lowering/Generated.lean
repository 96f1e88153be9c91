import Formula.Proofs.Lowering.Spelling

/-! # The function that a definition generates

The function that a definition generates is given by the definition alone: its registers are
named from an empty supply, and its arguments are those of its own prototype. Of the module only
that lowering succeeds is needed, so nothing of its history shows in the text of the function:
no other function, no parameter of an earlier declaration, no body that was left open.

The body is in single assignment form: whole operations over fresh registers and a return. Where
names are words, the text is that of no other function.
-/

namespace Formula

open Ssa

namespace Definition

variable {d : Definition} {m m' : Module} {callable : String}

def generated? (d : Definition) : Option Function :=
  (d.body.emit d.prototype.scope d.prototype.slots.2).map fun (value, code, _) =>
    ⟨d.prototype.name, d.prototype.slots.1, some (code ++ [.ret value])⟩

theorem exists_generated (h : d.lower m = .ok callable m') : callable = d.prototype.name ∧
    ∃ f, d.generated? = some f ∧ f.body.isSome = true ∧ m'.function? callable = some f := by
  obtain ⟨rfl, value, code, names, emitted, found⟩ := function?_of_lower h
  refine ⟨rfl, _, ?_, rfl, found⟩
  rw [generated?, emitted, Option.map_some]

/-- Wherever a definition is lowered, its function has the same parameters, body and text. -/
theorem render_lower_independent {m₁ m₂ m₁' m₂' : Module} {callable₁ callable₂ : String}
    (h₁ : d.lower m₁ = .ok callable₁ m₁') (h₂ : d.lower m₂ = .ok callable₂ m₂') :
    callable₁ = d.prototype.name ∧ callable₂ = d.prototype.name ∧
      m₁'.render callable₁ = m₂'.render callable₂ ∧
      ∃ f, f.body.isSome = true ∧ m₁'.function? callable₁ = some f ∧
        m₂'.function? callable₂ = some f ∧ m₁'.render callable₁ = f.toText := by
  obtain ⟨rfl, f, generated, body, found⟩ := exists_generated h₁
  obtain ⟨rfl, g, generated', -, found'⟩ := exists_generated h₂
  obtain rfl : f = g := Option.some.inj (generated.symm.trans generated')
  have text : m₁'.render d.prototype.name = f.toText := by simp [Module.render, found]
  have text' : m₂'.render d.prototype.name = f.toText := by simp [Module.render, found']
  exact ⟨rfl, rfl, text.trans text'.symm, f, body, found, found', text⟩

/-- A stale scope, an open body and the parameters of a declaration leave no trace. -/
theorem render_lower_independent_stale :
    ∃ m₁' m₂', Definition.lower ⟨⟨"f", ["x"]⟩, .binary '+' (.reference "x") (.number .zero)⟩
        (Module.empty "m") = .ok "f" m₁' ∧
      Definition.lower ⟨⟨"f", ["x"]⟩, .binary '+' (.reference "x") (.number .zero)⟩
        (⟨"n", [⟨"g", ["x", "addtmp"], none⟩, ⟨"f", ["other"], none⟩], [("x", .register "stale")],
          some ⟨["x"], [.ret (.register "x")], ⟨["addtmp", "x"], [("addtmp", 7)]⟩⟩⟩ : Module) =
        .ok "f" m₂' ∧
      m₁'.render "f" = m₂'.render "f" := by
  obtain ⟨m₁', h₁⟩ : ∃ m₁', Definition.lower
      ⟨⟨"f", ["x"]⟩, .binary '+' (.reference "x") (.number .zero)⟩ (Module.empty "m") =
        .ok "f" m₁' := ⟨_, rfl⟩
  obtain ⟨m₂', h₂⟩ : ∃ m₂', Definition.lower
      ⟨⟨"f", ["x"]⟩, .binary '+' (.reference "x") (.number .zero)⟩
      (⟨"n", [⟨"g", ["x", "addtmp"], none⟩, ⟨"f", ["other"], none⟩], [("x", .register "stale")],
        some ⟨["x"], [.ret (.register "x")], ⟨["addtmp", "x"], [("addtmp", 7)]⟩⟩⟩ : Module) =
        .ok "f" m₂' := ⟨_, rfl⟩
  exact ⟨m₁', m₂', h₁, h₂, (render_lower_independent h₁ h₂).2.2.1⟩

end Definition

theorem Definition.toText_eq_render_iff {d : Definition} {m m' : Module} {callable : String}
    (h : d.lower m = .ok callable m') (hd : d.Spelled) {f g : Function}
    (found : m'.function? callable = some f) (hg : g.Spelled) :
    g.toText = m'.render callable ↔ g = f := by
  obtain ⟨rfl, value, code, names, emitted, stored⟩ := function?_of_lower h
  obtain rfl := Option.some.inj (stored.symm.trans found)
  rw [Module.render, stored, Option.map_some, Option.getD_some]
  exact Function.toText_inj hg (hd.function emitted)

/-- The function of a lowered definition has a body in single assignment form. -/
theorem Definition.lower_wellFormed {d : Definition} {m m' : Module} {callable : String}
    (h : d.lower m = .ok callable m') :
    callable = d.prototype.name ∧ ∃ params body,
      m'.function? callable = some ⟨callable, params, some body⟩ ∧
      m'.render callable = (Function.mk callable params (some body)).toText ∧
      (d.Spelled → ∀ f : Function, f.Spelled →
        (f.toText = m'.render callable ↔ f = ⟨callable, params, some body⟩)) ∧
      params.length = d.prototype.arity ∧ WellFormed params body := by
  obtain ⟨rfl, value, code, names, he, hf⟩ := function?_of_lower h
  refine ⟨rfl, d.prototype.slots.1, code ++ [.ret value], hf, by simp [Module.render, hf],
    fun hd f => toText_eq_render_iff h hd hf, NameSupply.length_freshAll .empty _, ?_⟩
  obtain ⟨known, block, hk⟩ :=
    d.body.emit_blocks (fun _ _ => Prototype.known_of_lookup) _ _ _ _ he
  obtain ⟨used, nodup⟩ := d.body.emit_fresh _ _ _ _ he
  refine block.wellFormed hk ?_
  -- The names taken in the end are the parameters and the results, last one first.
  have distinct := nodup d.prototype.nodup_used_slots
  rw [used, d.prototype.used_slots, ← List.reverse_append] at distinct
  exact List.nodup_reverse.mp distinct

theorem Definition.lower_wellFormed_clashing :
    let d : Definition := ⟨⟨"f", ["x", "x1", "x"]⟩,
      .binary '*' (.binary '<' (.reference "x") (.reference "x1")) (.reference "x")⟩
    let body : List Instruction :=
      [.compare "cmptmp" (.register "x2") (.register "x1"), .widen "booltmp" "cmptmp",
        .arithmetic .mul "multmp" (.register "booltmp") (.register "x2"),
        .ret (.register "multmp")]
    let m' : Module := ⟨"m", [⟨"f", ["x", "x1", "x2"], some body⟩], [], none⟩
    let text := "define double @f(double %x, double %x1, double %x2) \x7b\nentry:\n" ++
      "  %cmptmp = fcmp ult double %x2, %x1\n  %booltmp = uitofp i1 %cmptmp to double\n" ++
      "  %multmp = fmul double %booltmp, %x2\n  ret double %multmp\n\x7d\n"
    d.lower (.empty "m") = .ok "f" m' ∧ WellFormed ["x", "x1", "x2"] body ∧ d.Spelled ∧
      ∀ f : Function, f.Spelled → (f.toText = text ↔ f = ⟨"f", ["x", "x1", "x2"], some body⟩) := by
  intro d body m' text
  have h : d.lower (.empty "m") = .ok "f" m' := by decide +kernel
  have spelled : d.Spelled := ⟨by decide +kernel, by decide +kernel, nofun⟩
  have rendered : m'.render "f" = text := by decide +kernel
  obtain ⟨-, _, _, stored, -, pinned, -, wf⟩ := Definition.lower_wellFormed h
  cases stored
  rw [rendered] at pinned
  exact ⟨h, wf, spelled, pinned spelled⟩

end Formula
