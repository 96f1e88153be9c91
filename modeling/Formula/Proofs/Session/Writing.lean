import Formula.Session.Basic

/-! # What a session writes

A session hands text after text to its sink: the prompt, and for each item the report, if
there is one, and the prompt again. Writing does not touch the target. A sink that refuses nothing
takes all texts, and the target is then the one that handling the items leaves.
-/

namespace Formula

namespace Sink

variable {S : Type} [Sink S] {text : String}

def writeAll (sink : S) : List String → Outcome WriteError S Unit
  | [] => .ok () sink
  | text :: rest => (write sink text).andThen fun _ sink => writeAll sink rest

theorem writeAll_singleton (sink : S) (text : String) : writeAll sink [text] = write sink text := by
  rw [writeAll]
  cases write sink text <;> rfl

theorem writeAll_append (sink : S) (texts more : List String) :
    writeAll sink (texts ++ more) =
      (writeAll sink texts).andThen fun _ sink => writeAll sink more := by
  induction texts generalizing sink with
  | nil => rfl
  | cons text rest ih =>
    rw [List.cons_append, writeAll, writeAll]
    cases write sink text with
    | ok _ next => exact ih next
    | error => rfl

/-- No text is refused, whatever was written before. -/
def NeverFails (sink : S) : Prop := ∀ texts, ∃ last, writeAll sink texts = .ok () last

theorem NeverFails.writeAll {sink : S} (h : NeverFails sink) (texts : List String) :
    ∃ next, writeAll sink texts = .ok () next ∧ NeverFails next := by
  obtain ⟨next, written⟩ := h texts
  refine ⟨next, written, fun more => ?_⟩
  obtain ⟨last, all⟩ := h (texts ++ more)
  rw [writeAll_append, written] at all
  exact ⟨last, all⟩

theorem write_of_unlimited (bytes : ByteArray) (text : String) :
    write (⟨bytes, none⟩ : Buffer) text = .ok () ⟨bytes ++ text.toUTF8, none⟩ := by
  have whole : text.toUTF8.extract 0 text.toUTF8.size = text.toUTF8 := ByteArray.extract_zero_size
  change (if text.toUTF8.size = text.toUTF8.size then
    Outcome.ok () (⟨bytes ++ text.toUTF8.extract 0 text.toUTF8.size, none⟩ : Buffer) else _) = _
  rw [if_pos rfl, whole]

theorem neverFails_buffer {buffer : Buffer} (h : buffer.limit = none) : NeverFails buffer := by
  obtain ⟨bytes, _⟩ := buffer
  cases h
  intro texts
  induction texts generalizing bytes with
  | nil => exact ⟨_, rfl⟩
  | cons text rest ih =>
    rw [Sink.writeAll, write_of_unlimited, Outcome.andThen_ok]
    exact ih _

/-- Texts that make up the given one bring the sink from one state to the other. -/
def Writes (sink : S) (text : String) (last : S) : Prop :=
  ∃ texts, String.join texts = text ∧ writeAll sink texts = .ok () last

theorem Writes.eq_of_unlimited {bytes : ByteArray} {last : Buffer}
    (h : Writes ⟨bytes, none⟩ text last) : last = ⟨bytes ++ text.toUTF8, none⟩ := by
  obtain ⟨texts, rfl, written⟩ := h
  induction texts generalizing bytes with
  | nil =>
    obtain ⟨-, rfl⟩ := Outcome.ok.inj written
    simp
  | cons text rest ih =>
    rw [writeAll, write_of_unlimited, Outcome.andThen_ok] at written
    rw [ih written]
    simp only [String.join_cons, String.toUTF8_eq_toByteArray, String.toByteArray_append,
      ByteArray.append_assoc]

end Sink

variable {σ Value Callable S : Type} [LoweringTarget σ Value Callable] [Sink S]

/-- What a session writes while it handles items, and the target that they leave. -/
def Item.outputs (prompt : String) : List Item → Option σ → List String × Option σ
  | [], target => ([], target)
  | item :: rest, target =>
    let (report, target) := item.handle target
    let (texts, target) := outputs prompt rest target
    (report.toList ++ prompt :: texts, target)

theorem Item.outputs_append (prompt : String) (items more : List Item) (target : Option σ) :
    outputs prompt (items ++ more) target =
      ((outputs prompt items target).1 ++ (outputs prompt more (outputs prompt items target).2).1,
        (outputs prompt more (outputs prompt items target).2).2) := by
  induction items generalizing target with
  | nil => rfl
  | cons item rest ih => simp [outputs, ih]

namespace Session

theorem write_of_ok (session : Session σ S) {text : String} {sink : S}
    (h : Sink.write session.sink text = .ok () sink) :
    session.write text = .ok () { session with sink } := by
  rw [write, h]

theorem target_write (session : Session σ S) (text : String) :
    (session.write text).state.target = session.target := by
  unfold write
  split <;> rfl

theorem target_step (session : Session σ S) (item : Item) :
    (session.step item).state.target = (item.handle session.target).2 := by
  unfold step
  simp only
  split
  · exact target_write _ _
  · rw [Outcome.state_andThen_congr Session.target]
    · exact target_write _ _
    · exact fun _ session => session.target_write _

/-- What each item keeps true of the target, items in turn keep, even if a report fails. -/
theorem target_steps {P : Option σ → Prop} {items : List Item} (session : Session σ S)
    (h : ∀ item ∈ items, ∀ target, P target → P (item.handle target).2) (hp : P session.target) :
    P (session.steps items).state.target := by
  induction items generalizing session with
  | nil => exact hp
  | cons item rest ih =>
    refine Outcome.state_andThen_of (P := fun session : Session σ S => P session.target) ?_ ?_
    · rw [target_step]
      exact h item (by simp) _ hp
    · exact fun _ next => ih next fun i hi => h i (by simp [hi])

theorem target_dump (session : Session σ S) :
    session.dump.state.target = session.target := by
  unfold dump
  split
  · exact target_write _ _
  · rfl

theorem target_run {P : Option σ → Prop} {table : OperatorTable} {source : Cursor}
    (session : Session σ S)
    (h : ∀ item ∈ Item.all table source.tokens, ∀ target, P target → P (item.handle target).2)
    (hp : P session.target) : P (session.run table source).state.target := by
  let holds (session : Session σ S) : Prop := P session.target
  refine Outcome.state_andThen_of (P := holds) ?_ fun _ prompted begun => ?_
  · change P session.showPrompt.state.target
    rw [showPrompt, target_write]
    exact hp
  refine Outcome.state_andThen_of (P := holds) (prompted.target_steps h begun) fun _ last kept => ?_
  change P last.dump.state.target
  rw [target_dump]
  exact kept

variable {session : Session σ S}

theorem step_of_unreported {item : Item} {target : Option σ}
    (h : item.handle session.target = (none, target)) :
    session.step item = { session with target }.showPrompt := by
  simp only [step, h]

theorem step_of_reported {item : Item} {target : Option σ} {text : String}
    (h : item.handle session.target = (some text, target)) :
    session.step item =
      ({ session with target }.write text).andThen fun _ session => session.showPrompt := by
  simp only [step, h]

theorem step_of_writeAll {item : Item} {sink : S}
    (h : Sink.writeAll session.sink ((item.handle session.target).1.toList ++ [session.prompt]) =
      .ok () sink) :
    session.step item = .ok () { session with target := (item.handle session.target).2, sink } := by
  rcases handled : item.handle session.target with ⟨_ | text, target⟩
  · rw [handled, Option.toList_none, List.nil_append, Sink.writeAll_singleton] at h
    rw [step_of_unreported handled]
    exact write_of_ok _ h
  · rw [handled, Option.toList_some, List.singleton_append, Sink.writeAll] at h
    obtain ⟨_, middle, reported, prompted⟩ := Outcome.andThen_eq_ok.mp h
    rw [Sink.writeAll_singleton] at prompted
    rw [step_of_reported handled, write_of_ok { session with target } reported]
    exact write_of_ok _ prompted

theorem exists_showPrompt (session : Session σ S) (writes : Sink.NeverFails session.sink) :
    ∃ sink, session.showPrompt = .ok () { session with sink } ∧
      Sink.write session.sink session.prompt = .ok () sink ∧ Sink.NeverFails sink := by
  obtain ⟨sink, begun, writes⟩ := writes.writeAll [session.prompt]
  rw [Sink.writeAll_singleton] at begun
  exact ⟨sink, write_of_ok _ begun, begun, writes⟩

theorem exists_dump (session : Session σ S) (writes : Sink.NeverFails session.sink) :
    ∃ final, session.dump = .ok () final := by
  unfold dump
  split
  next target _ _ =>
    obtain ⟨sink, written, -⟩ := writes.writeAll [LoweringTarget.renderModule target]
    rw [Sink.writeAll_singleton] at written
    exact ⟨_, write_of_ok _ written⟩
  · exact ⟨session, rfl⟩

/-- A session that can always write hands all outputs of the items to its sink. -/
theorem exists_steps (items : List Item) (session : Session σ S)
    (writes : Sink.NeverFails session.sink) :
    ∃ sink, session.steps items = .ok () { session with
        target := (Item.outputs session.prompt items session.target).2
        sink } ∧
      Sink.writeAll session.sink (Item.outputs session.prompt items session.target).1 =
        .ok () sink ∧
      Sink.NeverFails sink := by
  induction items generalizing session with
  | nil => exact ⟨session.sink, rfl, rfl, writes⟩
  | cons item rest ih =>
    obtain ⟨middle, written, writes⟩ := writes.writeAll
      ((item.handle session.target).1.toList ++ [session.prompt])
    obtain ⟨last, steps, later, writes⟩ :=
      ih { session with target := (item.handle session.target).2, sink := middle } writes
    refine ⟨last, ?_, ?_, writes⟩
    · rw [Session.steps, step_of_writeAll written, Outcome.andThen_ok, steps]
      rfl
    · change Sink.writeAll session.sink ((item.handle session.target).1.toList ++
        ([session.prompt] ++ (Item.outputs session.prompt rest (item.handle session.target).2).1)) =
          .ok () last
      rw [← List.append_assoc, Sink.writeAll_append, written, Outcome.andThen_ok]
      exact later

theorem exists_run (session : Session σ S) (quiet : session.dumpsModule = false)
    (writes : Sink.NeverFails session.sink) (table : OperatorTable) (source : Cursor) :
    ∃ sink, session.run table source = .ok () { session with
        target := (Item.outputs session.prompt (Item.all table source.tokens) session.target).2
        sink } ∧
      Sink.writeAll session.sink (session.prompt ::
        (Item.outputs session.prompt (Item.all table source.tokens) session.target).1) =
          .ok () sink ∧
      Sink.NeverFails sink := by
  obtain ⟨middle, prompted, begun, writes⟩ := session.exists_showPrompt writes
  obtain ⟨last, steps, written, writes⟩ :=
    exists_steps (Item.all table source.tokens) { session with sink := middle } writes
  refine ⟨last, ?_, ?_, writes⟩
  · rw [run, prompted, Outcome.andThen_ok, steps, Outcome.andThen_ok]
    unfold dump
    rw [quiet]
  · rw [Sink.writeAll, begun, Outcome.andThen_ok]
    exact written

theorem run_of_unlimited (target : Option σ) (bytes : ByteArray) (prompt : String)
    (table : OperatorTable) (source : Cursor) :
    (⟨target, ⟨bytes, none⟩, prompt, false⟩ : Session σ Buffer).run table source = .ok () ⟨
      (Item.outputs prompt (Item.all table source.tokens) target).2,
      ⟨bytes ++ (prompt ++ String.join
        (Item.outputs prompt (Item.all table source.tokens) target).1).toUTF8, none⟩,
      prompt, false⟩ := by
  obtain ⟨sink, run, written, -⟩ :=
    exists_run ⟨target, ⟨bytes, none⟩, prompt, false⟩ rfl (Sink.neverFails_buffer rfl) table source
  have last : sink = ⟨bytes ++ (prompt ++ String.join
      (Item.outputs prompt (Item.all table source.tokens) target).1).toUTF8, none⟩ :=
    Sink.Writes.eq_of_unlimited ⟨_, String.join_cons, written⟩
  rw [run, last]

end Session

end Formula
