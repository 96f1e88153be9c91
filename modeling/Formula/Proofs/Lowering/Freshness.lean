import Formula.Proofs.Lowering.Outcomes
import Formula.Proofs.Ssa.WellFormed

/-! # Emitted code assigns fresh registers

The code of an expression consists of whole operations over what its scope and its own
earlier instructions hold, and every register it assigns has a name that was not taken.
-/

namespace Formula

open Ssa

namespace Ssa.Emission

variable {α β : Type}

/-- An emission that takes the names it assigns, none of them taken before. -/
def Fresh (f : Emission α) : Prop :=
  ∀ names value code last, f names = some (value, code, last) →
    last.used = (results code).reverse ++ names.used ∧ (names.used.Nodup → last.used.Nodup)

theorem Fresh.pure (value : α) : (pure value).Fresh := by
  rintro names _ _ _ ⟨⟩
  exact ⟨rfl, id⟩

theorem Fresh.register (base : String) {instruction : String → Instruction}
    (h : ∀ r, (instruction r).result? = some r) : (register base instruction).Fresh := by
  rintro names _ _ _ ⟨⟩
  exact ⟨by simp [results, h], fun hn => NameSupply.nodup_used_fresh hn base⟩

theorem Fresh.andThen {first : Emission α} {next : α → Emission β} (h : first.Fresh)
    (h' : ∀ value, (next value).Fresh) : (first.andThen next).Fresh := by
  intro names result code last hc
  obtain ⟨value, before, middle, after, hf, hn, rfl⟩ := andThen_eq_some.mp hc
  obtain ⟨used, nodup⟩ := h _ _ _ _ hf
  obtain ⟨used', nodup'⟩ := h' _ _ _ _ _ hn
  exact ⟨by simp [used', used], fun distinct => nodup' (nodup distinct)⟩

theorem Fresh.map {first : Emission α} (h : first.Fresh) (f : α → β) : (first.map f).Fresh :=
  h.andThen fun value => .pure (f value)

theorem Fresh.operation (op : Char) (lhs rhs : Value) : (operation op lhs rhs).Fresh := by
  unfold Emission.operation
  split
  · nofun
  · exact (Fresh.register _ fun _ => rfl).map _
  · exact (Fresh.register _ fun _ => rfl).andThen fun _ => (Fresh.register _ fun _ => rfl).map _

/-- An emission that appends whole operations to what is known, with a result that `knows`. -/
def Blocks (f : Emission α) (knows : α → List String → Prop) (known : List String) : Prop :=
  ∀ names value code last, f names = some (value, code, last) →
    ∃ known', Block known code known' ∧ knows value known'

variable {known : List String}

theorem Blocks.pure {knows : α → List String → Prop} {value : α} (h : knows value known) :
    (pure value).Blocks knows known := by
  rintro names _ _ _ ⟨⟩
  exact ⟨known, .nil known, h⟩

theorem Blocks.andThen {knows : α → List String → Prop} {knows' : β → List String → Prop}
    {first : Emission α} {next : α → Emission β} (h : first.Blocks knows known)
    (h' : ∀ value known', known ⊆ known' → knows value known' → (next value).Blocks knows' known') :
    (first.andThen next).Blocks knows' known := by
  intro names result code last hc
  obtain ⟨value, before, middle, after, hf, hn, rfl⟩ := andThen_eq_some.mp hc
  obtain ⟨known', block, hk⟩ := h _ _ _ _ hf
  obtain ⟨known'', block', hk'⟩ := h' value known' block.subset hk _ _ _ _ hn
  exact ⟨known'', block.append block', hk'⟩

theorem Blocks.map {knows : α → List String → Prop} {knows' : β → List String → Prop}
    {first : Emission α} {f : α → β} (h : first.Blocks knows known)
    (hf : ∀ value known', known ⊆ known' → knows value known' → knows' (f value) known') :
    (first.map f).Blocks knows' known :=
  h.andThen fun value known' more hk => .pure (hf value known' more hk)

theorem Blocks.operation (op : Char) {lhs rhs : Value} (hl : lhs.Known known)
    (hr : rhs.Known known) : (operation op lhs rhs).Blocks Value.Known known := by
  unfold Emission.operation
  split
  · nofun
  · rintro names _ _ _ ⟨⟩
    exact ⟨_, .arithmetic hl hr (.nil _), Value.known_register.mpr (by simp)⟩
  · rintro names _ _ _ ⟨⟩
    exact ⟨_, .comparison hl hr (.nil _), Value.known_register.mpr (by simp)⟩

theorem Blocks.call (callee : String) {args : List Value} (h : ∀ arg ∈ args, arg.Known known) :
    ((register "calltmp" (.call · callee args)).map .register).Blocks Value.Known known := by
  rintro names _ _ _ ⟨⟩
  exact ⟨_, .call h (.nil _), Value.known_register.mpr (by simp)⟩

end Ssa.Emission

namespace Expr

variable {scope : List (String × Value)}

theorem emitAll_fresh {args : List Expr} (ih : ∀ arg ∈ args, (arg.emit scope).Fresh) :
    (emitAll scope args).Fresh := by
  induction args with
  | nil => exact .pure []
  | cons arg rest ih' =>
    exact (ih arg (by simp)).andThen fun value => (ih' fun a ha => ih a (by simp [ha])).map _

theorem emit_fresh (e : Expr) : (e.emit scope).Fresh := by
  induction e with
  | number value => exact .pure _
  | reference name =>
    intro names value code last h
    obtain ⟨_, _, ⟨⟩⟩ := Option.map_eq_some_iff.mp h
    exact ⟨rfl, id⟩
  | binary op lhs rhs ihl ihr =>
    exact ihl.andThen fun a => ihr.andThen fun b => .operation op a b
  | call callee args ih =>
    exact (emitAll_fresh ih).andThen fun values => (Emission.Fresh.register _ fun _ => rfl).map _

theorem emitAll_blocks {args : List Expr} {known : List String}
    (ih : ∀ arg ∈ args, ∀ {known}, (∀ name value, scope.lookup name = some value →
      value.Known known) → (arg.emit scope).Blocks Value.Known known)
    (hs : ∀ name value, scope.lookup name = some value → value.Known known) :
    (emitAll scope args).Blocks (fun values known => ∀ v ∈ values, v.Known known) known := by
  induction args generalizing known with
  | nil => exact .pure (by simp)
  | cons arg rest ih' =>
    refine (ih arg (by simp) hs).andThen fun value known' more hv => ?_
    have others := ih' (fun a ha => ih a (by simp [ha])) fun name v h => (hs name v h).mono more
    refine others.map fun values known'' more' hvs => ?_
    rintro v (_ | ⟨_, h⟩)
    · exact hv.mono more'
    · exact hvs v h

theorem emit_blocks (e : Expr) {known : List String}
    (hs : ∀ name value, scope.lookup name = some value → value.Known known) :
    (e.emit scope).Blocks Value.Known known := by
  induction e generalizing known with
  | number value => exact .pure (Value.known_constant value known)
  | reference name =>
    intro names value code last h
    obtain ⟨_, hv, ⟨⟩⟩ := Option.map_eq_some_iff.mp h
    exact ⟨known, .nil known, hs name value hv⟩
  | binary op lhs rhs ihl ihr =>
    refine (ihl hs).andThen fun a known' more ha => ?_
    refine (ihr fun name v h => (hs name v h).mono more).andThen fun b known'' more' hb => ?_
    exact .operation op (ha.mono more') hb
  | call callee args ih =>
    exact (emitAll_blocks ih hs).andThen fun values known' _ hv => .call callee hv

end Expr

namespace Prototype

theorem known_of_lookup {p : Prototype} {name : String} {value : Value}
    (h : p.scope.lookup name = some value) : value.Known p.slots.1 := by
  obtain ⟨before, after, hs, -⟩ := List.lookup_eq_some_iff.mp h
  have mem : (name, value) ∈ p.scope := by simp [hs]
  have := (List.of_mem_zip (List.mem_reverse.mp mem)).2
  obtain ⟨r, hr, rfl⟩ := List.mem_map.mp this
  exact Value.known_register.mpr hr

theorem used_slots (p : Prototype) : p.slots.2.used = p.slots.1.reverse := by
  simpa [slots, NameSupply.empty] using NameSupply.used_freshAll .empty p.args

theorem nodup_used_slots (p : Prototype) : p.slots.2.used.Nodup :=
  NameSupply.nodup_used_freshAll List.nodup_nil p.args

end Prototype

end Formula
