import Formula.Proofs.Session.Growth

/-! # Output with a limit

A buffer with a limit keeps the first bytes of what one without a limit keeps. A session
that writes to it does the same up to the text that does not fit, and stops there. Its
target is then the one for which this text was written, as items are handled before they
are reported on.
-/

namespace Formula

open LoweringTarget

namespace Buffer

variable {bytes : ByteArray} {limit : Nat}

def capped (limit : Nat) (buffer : Buffer) : Buffer := ⟨buffer.bytes.extract 0 limit, some limit⟩

theorem extract_of_size_le (h : bytes.size ≤ limit) : bytes.extract 0 limit = bytes := by
  rw [← Nat.max_eq_left h, ByteArray.extract_zero_max_size]

theorem extract_min (bytes : ByteArray) (limit : Nat) :
    bytes.extract 0 (min bytes.size limit) = bytes.extract 0 limit := by
  by_cases h : bytes.size ≤ limit
  · rw [Nat.min_eq_left h, ByteArray.extract_zero_size, extract_of_size_le h]
  · rw [Nat.min_eq_right (by omega)]

theorem extract_append_of_size_le (h : bytes.size ≤ limit) (more : ByteArray) :
    (bytes ++ more).extract 0 limit = bytes ++ more.extract 0 (limit - bytes.size) := by
  rw [ByteArray.extract_append, extract_of_size_le h, Nat.zero_sub]

theorem extract_append_of_le_size (h : limit ≤ bytes.size) (more : ByteArray) :
    (bytes ++ more).extract 0 limit = bytes.extract 0 limit := by
  rw [ByteArray.extract_append, Nat.sub_eq_zero_of_le h, Nat.zero_sub, ByteArray.extract_same,
    ByteArray.append_empty]

theorem write_capped (h : bytes.size ≤ limit) (text : String) :
    Sink.write (capped limit ⟨bytes, none⟩) text =
      if (bytes ++ text.toUTF8).size ≤ limit then .ok () (capped limit ⟨bytes ++ text.toUTF8, none⟩)
      else .error ⟨"sink full"⟩ (capped limit ⟨bytes ++ text.toUTF8, none⟩) := by
  have fits : min text.toUTF8.size (limit - bytes.size) = text.toUTF8.size ↔
      (bytes ++ text.toUTF8).size ≤ limit := by
    rw [ByteArray.size_append]
    omega
  unfold capped
  simp only
  rw [extract_of_size_le h, extract_append_of_size_le h, ← extract_min]
  simp only [← fits]
  rfl

end Buffer

namespace Session

variable {σ Value Callable : Type} [LoweringTarget σ Value Callable]
variable {session middle next last : Session σ Buffer} {limit : Nat}
variable {stop stop' : Option σ → Prop}

def size (session : Session σ Buffer) : Nat := session.sink.bytes.size

def capped (limit : Nat) (session : Session σ Buffer) : Session σ Buffer :=
  { session with sink := session.sink.capped limit }

/-- The session without a limit has gone on to the other one and has written more. -/
structure GoesTo (session next : Session σ Buffer) : Prop where
  written : ∃ more, next.sink = ⟨session.sink.bytes ++ more, none⟩
  prompt : next.prompt = session.prompt
  dumpsModule : next.dumpsModule = session.dumpsModule

namespace GoesTo

theorem unlimited (h : session.GoesTo next) : next.sink.limit = none := by
  obtain ⟨more, sink⟩ := h.written
  rw [sink]

theorem size_le (h : session.GoesTo next) : session.size ≤ next.size := by
  obtain ⟨more, sink⟩ := h.written
  simp [size, sink]

theorem trans (h : session.GoesTo middle) (h' : middle.GoesTo last) : session.GoesTo last := by
  obtain ⟨more, sink⟩ := h.written
  obtain ⟨others, sink'⟩ := h'.written
  refine ⟨⟨more ++ others, ?_⟩, h'.prompt.trans h.prompt, h'.dumpsModule.trans h.dumpsModule⟩
  rw [sink', sink, ByteArray.append_assoc]

/-- Behind the limit, nothing that is written shows. -/
theorem capped_eq (h : session.GoesTo next) (full : limit ≤ session.size) (target : Option σ) :
    { next.capped limit with target } = { session.capped limit with target } := by
  obtain ⟨more, sink⟩ := h.written
  simp only [capped, Buffer.capped, sink, h.prompt, h.dumpsModule]
  rw [Buffer.extract_append_of_le_size full]

end GoesTo

/-- With the limit, the next session is reached, or the sink is full and the target as given. -/
inductive ReachesOrStops (limit : Nat) (stop : Option σ → Prop) (next : Session σ Buffer) :
    Written σ Buffer → Prop where
  | fits : next.size ≤ limit → ReachesOrStops limit stop next (.ok () (next.capped limit))
  | stops {target : Option σ} : limit < next.size → stop target →
    ReachesOrStops limit stop next (.error ⟨"sink full"⟩ { next.capped limit with target })

/-- Two outcomes from one session: without a limit it goes to the next, with it as far as it can. -/
structure Truncates (limit : Nat) (stop : Option σ → Prop) (session next : Session σ Buffer)
    (outcome cut : Written σ Buffer) : Prop where
  free : outcome = .ok () next
  goesTo : session.GoesTo next
  limited : session.size ≤ limit → ReachesOrStops limit stop next cut

namespace Truncates

variable {outcome cut : Written σ Buffer}

theorem mono (h : Truncates limit stop session next outcome cut)
    (weaker : session.size ≤ limit → ∀ target, stop target → stop' target) :
    Truncates limit stop' session next outcome cut where
  free := h.free
  goesTo := h.goesTo
  limited := by
    intro room
    cases h.limited room with
    | fits fits => exact .fits fits
    | stops full stopped => exact .stops full (weaker room _ stopped)

theorem done (unlimited : session.sink.limit = none) :
    Truncates limit stop session session (.ok () session) (.ok () (session.capped limit)) := by
  refine ⟨rfl, ⟨⟨.empty, ?_⟩, rfl, rfl⟩, .fits⟩
  rw [ByteArray.append_empty, ← unlimited]

/-- The second part is reached if the first one fits, and then starts below the limit. -/
theorem andThen (first : Truncates limit stop session middle outcome cut)
    (rest : Session σ Buffer → Written σ Buffer)
    (second : Truncates limit stop' middle last (rest middle) (rest (middle.capped limit))) :
    Truncates limit (fun target => limit < middle.size ∧ stop target ∨
        middle.size ≤ limit ∧ limit < last.size ∧ stop' target) session last
      (outcome.andThen fun _ session => rest session)
      (cut.andThen fun _ session => rest session) where
  free := by rw [first.free, Outcome.andThen_ok, second.free]
  goesTo := first.goesTo.trans second.goesTo
  limited := by
    intro room
    cases first.limited room with
    | fits fits =>
      rw [Outcome.andThen_ok]
      generalize rest (middle.capped limit) = cut at second
      cases second.limited fits with
      | fits fits' => exact .fits fits'
      | stops full stopped => exact .stops full (.inr ⟨fits, full, stopped⟩)
    | stops full stopped =>
      rw [Outcome.andThen_error, ← second.goesTo.capped_eq (Nat.le_of_lt full)]
      exact .stops (Nat.lt_of_lt_of_le full second.goesTo.size_le) (.inl ⟨full, stopped⟩)

end Truncates

def wrote (session : Session σ Buffer) (text : String) : Session σ Buffer :=
  { session with sink := ⟨session.sink.bytes ++ text.toUTF8, none⟩ }

theorem write_truncates (session : Session σ Buffer) (limit : Nat)
    (unlimited : session.sink.limit = none) (text : String) :
    Truncates limit (· = session.target) session (session.wrote text) (session.write text)
      ((session.capped limit).write text) := by
  obtain ⟨target, ⟨bytes, _⟩, prompt, dumpsModule⟩ := session
  cases unlimited
  refine ⟨?_, ⟨⟨text.toUTF8, rfl⟩, rfl, rfl⟩, fun room => ?_⟩
  · rw [write, Sink.write_of_unlimited]
    rfl
  · simp only [write, capped]
    rw [Buffer.write_capped room]
    by_cases fits : (bytes ++ text.toUTF8).size ≤ limit
    · rw [if_pos fits]
      exact .fits fits
    · rw [if_neg fits]
      exact .stops (Nat.lt_of_not_le fits) rfl

/-- An item is handled before anything of its report or of the prompt is written. -/
theorem exists_step_truncates (session : Session σ Buffer) (limit : Nat)
    (unlimited : session.sink.limit = none) (item : Item) :
    ∃ next, Truncates limit (· = next.target) session next (session.step item)
      ((session.capped limit).step item) := by
  have same : (session.capped limit).target = session.target := rfl
  rcases handled : item.handle session.target with ⟨_ | text, target⟩
  · let begun : Session σ Buffer := { session with target }
    have prompted := begun.write_truncates limit unlimited session.prompt
    rw [step_of_unreported handled, step_of_unreported (same ▸ handled)]
    exact ⟨begun.wrote session.prompt, prompted.free, ⟨prompted.goesTo.written, rfl, rfl⟩,
      prompted.limited⟩
  · let begun : Session σ Buffer := { session with target }
    have reported := begun.write_truncates limit unlimited text
    have prompted := (begun.wrote text).write_truncates limit rfl session.prompt
    obtain ⟨free, goesTo, limited⟩ := reported.andThen showPrompt prompted
    rw [step_of_reported handled, step_of_reported (same ▸ handled)]
    refine ⟨(begun.wrote text).wrote session.prompt, Truncates.mono
      ⟨free, ⟨goesTo.written, rfl, rfl⟩, limited⟩ fun _ target stopped => ?_⟩
    rcases stopped with ⟨-, rfl⟩ | ⟨-, -, rfl⟩ <;> rfl

/-- Without a limit, a session handles these items; the text that exceeds the limit is of one. -/
def StopsAmong (limit : Nat) (items : List Item) (session : Session σ Buffer)
    (target : Option σ) : Prop :=
  ∃ k before after, k < items.length ∧ session.steps (items.take k) = .ok () before ∧
    session.steps (items.take (k + 1)) = .ok () after ∧ before.size ≤ limit ∧
    limit < after.size ∧ target = after.target

theorem exists_steps_truncates (session : Session σ Buffer) (limit : Nat)
    (unlimited : session.sink.limit = none) (items : List Item) :
    ∃ last, Truncates limit (StopsAmong limit items session) session last (session.steps items)
      ((session.capped limit).steps items) := by
  induction items generalizing session with
  | nil => exact ⟨session, .done unlimited⟩
  | cons item rest ih =>
    obtain ⟨middle, step⟩ := session.exists_step_truncates limit unlimited item
    obtain ⟨last, later⟩ := ih middle step.goesTo.unlimited
    refine ⟨last, (step.andThen (·.steps rest) later).mono fun room target stopped => ?_⟩
    have first : session.steps [item] = .ok () middle := by
      rw [steps, step.free]
      rfl
    rcases stopped with ⟨full, rfl⟩ | ⟨-, -, k, before, after, inside, begun, done, fits, full, rfl⟩
    · exact ⟨0, session, middle, by simp, rfl, first, room, full, rfl⟩
    · refine ⟨k + 1, before, after, by simpa using inside, ?_, ?_, fits, full, rfl⟩
      · rw [List.take_succ_cons, steps, step.free, Outcome.andThen_ok, begun]
      · rw [List.take_succ_cons, steps, step.free, Outcome.andThen_ok, done]

theorem exists_dump_truncates (session : Session σ Buffer) (limit : Nat)
    (unlimited : session.sink.limit = none) :
    ∃ last, last.target = session.target ∧ Truncates limit (· = session.target) session last
      session.dump (session.capped limit).dump := by
  rcases session with ⟨_ | target, sink, prompt, _ | _⟩
  · exact ⟨_, rfl, .done unlimited⟩
  · exact ⟨_, rfl, .done unlimited⟩
  · exact ⟨_, rfl, .done unlimited⟩
  · refine ⟨_, ?_, write_truncates _ limit unlimited (renderModule target)⟩
    rfl

def runFirst {S : Type} [Sink S] (session : Session σ S) (table : OperatorTable) (source : Cursor)
    (k : Nat) : Written σ S :=
  session.showPrompt.andThen fun _ session =>
    session.steps ((Item.all table source.tokens).take k)

/--
Where a run stops that may write so many bytes, and the target that it leaves. The other sessions
are those that the run goes through without a limit.
-/
inductive Stops (limit : Nat) (table : OperatorTable) (source : Cursor)
    (session : Session σ Buffer) : Option σ → Prop where
  | prompt {prompted : Session σ Buffer} : session.runFirst table source 0 = .ok () prompted →
    limit < prompted.size → Stops limit table source session session.target
  | item {k : Nat} {before after : Session σ Buffer} :
    k < (Item.all table source.tokens).length →
    session.runFirst table source k = .ok () before →
    session.runFirst table source (k + 1) = .ok () after →
    before.size ≤ limit → limit < after.size → Stops limit table source session after.target
  | dump {handled final : Session σ Buffer} :
    session.runFirst table source (Item.all table source.tokens).length = .ok () handled →
    session.run table source = .ok () final →
    handled.size ≤ limit → limit < final.size → Stops limit table source session final.target

theorem exists_run_truncates (session : Session σ Buffer) (limit : Nat)
    (unlimited : session.sink.limit = none) (table : OperatorTable) (source : Cursor) :
    ∃ final, Truncates limit (Stops limit table source session) session final
      (session.run table source) ((session.capped limit).run table source) := by
  let items := Item.all table source.tokens
  have prompted := session.write_truncates limit unlimited session.prompt
  obtain ⟨handled, steps⟩ := exists_steps_truncates _ limit prompted.goesTo.unlimited items
  obtain ⟨final, same, dumped⟩ := handled.exists_dump_truncates limit steps.goesTo.unlimited
  have whole := prompted.andThen (fun session => (session.steps items).andThen fun _ => dump)
    (steps.andThen dump dumped)
  have runFirst_eq (k : Nat) : session.runFirst table source k =
      (session.wrote session.prompt).steps (items.take k) := by
    rw [runFirst, showPrompt, prompted.free, Outcome.andThen_ok]
  refine ⟨final, whole.mono fun _ target stopped => ?_⟩
  rcases stopped with ⟨full, rfl⟩ | ⟨-, -, ⟨-, among⟩ | ⟨fits, full, rfl⟩⟩
  · exact .prompt (runFirst_eq 0) full
  · obtain ⟨k, before, after, inside, begun, done, fits, full, rfl⟩ := among
    exact .item inside ((runFirst_eq k).trans begun) ((runFirst_eq (k + 1)).trans done) fits full
  · rw [← same]
    refine .dump ((runFirst_eq items.length).trans ?_) whole.free fits full
    rw [List.take_length]
    exact steps.free

/--
A sink with room for `n` more bytes keeps the first `n` of those that a run writes to one without a
limit. The run succeeds if they are all, and then leaves the same target; otherwise the target is
the one that the run without a limit has when it has handled the item with whose report or prompt
the limit is exceeded. A body that is under construction in the end, and any function around an
expression, were there at the start.
-/
theorem run_truncates (table : OperatorTable) (source : Cursor) (prompt : String)
    (dumpsModule : Bool) (written : ByteArray) (n : Nat) :
    (∀ {σ Value Callable : Type} [LoweringTarget σ Value Callable] (target : Option σ),
      let unlimited : Session σ Buffer := ⟨target, ⟨written, none⟩, prompt, dumpsModule⟩
      let limited : Session σ Buffer :=
        ⟨target, ⟨written, some (written.size + n)⟩, prompt, dumpsModule⟩
      ∃ full final, unlimited.run table source = .ok () final ∧
        final.sink.bytes = written ++ full ∧
        (limited.run table source).state.sink.bytes = written ++ full.extract 0 n ∧
        ((∃ last, limited.run table source = .ok () last) ↔ full.size ≤ n) ∧
        (full.size ≤ n → (limited.run table source).state.target = final.target) ∧
        (n < full.size → Stops (written.size + n) table source unlimited
          (limited.run table source).state.target)) ∧
    (∀ m : Ssa.Module, ∃ m', ((⟨some m, ⟨written, some (written.size + n)⟩, prompt, dumpsModule⟩ :
        Session Ssa.Module Buffer).run table source).state.target = some m' ∧
      (m'.Idle ∨ m'.builder = m.builder ∧ m'.scope = m.scope) ∧
      m'.functions.filter (·.name = Prototype.anonymousName) =
        m.functions.filter (·.name = Prototype.anonymousName)) := by
  constructor
  · intro σ Value Callable _ target unlimited limited
    have begun : unlimited.capped (written.size + n) = limited := by
      simp only [capped, Buffer.capped, unlimited, limited]
      rw [Buffer.extract_of_size_le (Nat.le_add_right _ _)]
    obtain ⟨final, free, ⟨⟨full, sink⟩, -, -⟩, reachesOrStops⟩ :=
      unlimited.exists_run_truncates (written.size + n) rfl table source
    have bytes : final.sink.bytes = written ++ full := by rw [sink]
    have kept : (final.sink.capped (written.size + n)).bytes = written ++ full.extract 0 n := by
      rw [Buffer.capped, bytes, Buffer.extract_append_of_size_le (Nat.le_add_right _ _),
        Nat.add_sub_cancel_left]
    have size : final.size = written.size + full.size := by
      rw [Session.size, bytes, ByteArray.size_append]
    have outcome := reachesOrStops (Nat.le_add_right _ _)
    rw [begun] at outcome
    refine ⟨full, final, free, bytes, ?_⟩
    generalize limited.run table source = limitedRun at outcome
    cases outcome with
    | fits fits =>
      have all : full.size ≤ n := by omega
      exact ⟨kept, ⟨fun _ => all, fun _ => ⟨_, rfl⟩⟩, fun _ => rfl, fun more => by omega⟩
    | stops exceeds stopped =>
      have more : n < full.size := by omega
      exact ⟨kept, ⟨nofun, fun all => by omega⟩, fun all => by omega, fun _ => stopped⟩
  · intro m
    obtain ⟨m', left, grown⟩ := exists_grown
      (⟨some m, ⟨written, some (written.size + n)⟩, prompt, dumpsModule⟩ :
        Session Ssa.Module Buffer) rfl table source
    exact ⟨m', left, grown.construction, grown.wrappers⟩

/-- The report on an expression exceeds the limit, and its function is not left behind. -/
theorem run_truncates_report :
    let limited : Session Ssa.Module Buffer := ⟨some (.empty "m"), .empty (some 100), "> ", true⟩
    let source : Cursor := .ofChars "def f(x) x f(2)".toList
    ∃ full m', full.size = 289 ∧
      (limited.run .standard source).state.sink.bytes = ByteArray.extract full 0 100 ∧
      (¬ ∃ last, limited.run .standard source = .ok () last) ∧
      Stops 100 .standard source ⟨some (.empty "m"), .empty none, "> ", true⟩
        (limited.run .standard source).state.target ∧
      (limited.run .standard source).state.target = some m' ∧
      m'.functions.filter (·.name = Prototype.anonymousName) = [] := by
  intro limited source
  obtain ⟨each, wrappers⟩ := run_truncates .standard source "> " true .empty 100
  obtain ⟨full, final, run, bytes, kept, fits, -, stops⟩ := each (some (Ssa.Module.empty "m"))
  obtain ⟨m', left, -, none⟩ := wrappers (.empty "m")
  have size : full.size = 289 := by
    rw [ByteArray.empty_append] at bytes
    have state := congrArg (·.state.sink.bytes.size) run
    rw [Outcome.state_ok, bytes] at state
    rw [← state]
    decide +kernel
  rw [size] at fits stops
  refine ⟨full, m', size, ?_, ?_, stops (by decide), left, none⟩
  · exact kept.trans ByteArray.empty_append
  · intro succeeds
    exact absurd (fits.mp succeeds) (by decide)

end Session

end Formula
