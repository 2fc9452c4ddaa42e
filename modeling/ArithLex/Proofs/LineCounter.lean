import ArithLex.Program
import ArithLex.Proofs.Delivery

/-!
# The line counter of a client program

A client program is followed step by step: `Program.moments` records, behind each step, what was
answered and who holds the cursor in which state, and the entries that a client sees are read off
these moments (`Program.run_eq_moments`). A step begins a new text, or it leads the cursor on by
reads, and the faults it tells of arise where it has led (`Moment.Follows`). A program is a course
of such steps (`Program.course_moments`), and along a course the line is always the one behind the
bytes that the reader has delivered since the text began (`Course.readsTo_of_split`).

The main result is `Program.line_counts`, for every script, every program and every step of it.
-/

namespace ArithLex

/-! ## Moments -/

/-- Who has the cursor: the client itself, or what the client has opened on it. -/
inductive Holder where
  | client (c : Cursor)
  | session (s : Session)
  | stream (s : TokenStream)

/-- The cursor that is held. -/
def Holder.cursor : Holder → Cursor
  | client c => c
  | session s => s.cursor
  | stream s => s.cursor

/-- The moment behind a step of a client program. -/
structure Moment where
  /-- Whether the step has begun a new text. -/
  beginsText : Bool
  answer : Answer
  holder : Holder

/-- Where the cursor stands behind the step. -/
def Moment.cursor (m : Moment) : Cursor :=
  m.holder.cursor

/-- What the client sees of a moment. -/
def Moment.entry (m : Moment) : Entry :=
  match m.holder with
  | .client c => .cursor m.answer c.line
  | .session s => s.entry m.answer
  | .stream _ => .stream m.answer

/-- The answer tells of the fault. -/
inductive Answer.Tells (f : Fault) : Answer → Prop where
  | byte {r : Pull Byte} (h : r = .fault f) : Tells f (.byte r)
  | tokens {r : Except Fault (List Token)} (h : r = .error f) : Tells f (.tokens r)
  | advanced {r : Pull Token} (h : r = .fault f) : Tells f (.advanced r)
  | pulled {r : Option (Except Fault Token)} (h : r = some (.error f)) : Tells f (.pulled r)
  | drained {items : List (Except Fault Token)} (h : .error f ∈ items) : Tells f (.drained items)

/-- Performs a step on the cursor, and records the moment behind it. -/
def Cursor.moment (c : Cursor) (x : CursorStep) : Moment × Cursor :=
  let (a, c) := c.perform x
  ({ beginsText := x = .beginText, answer := a, holder := .client c }, c)

/-- Performs a step on a session, and records the moment behind it. -/
def Session.moment (s : Session) (x : SessionStep) : Moment × Session :=
  let (a, s) := s.perform x
  ({ beginsText := x = .restart, answer := a, holder := .session s }, s)

/-- Performs a step on a stream, and records the moment behind it. -/
def TokenStream.moment (s : TokenStream) (x : StreamStep) : Moment × TokenStream :=
  let (a, s) := s.perform x
  ({ beginsText := false, answer := a, holder := .stream s }, s)

/-- The moments of an episode. To open a session or a stream is a step, too. -/
def Episode.moments (c : Cursor) : Episode → List Moment × Cursor
  | step x =>
    let (m, c) := c.moment x
    ([m], c)
  | session steps =>
    let start := Session.begin c
    let (ms, s) := performAll Session.moment start steps
    ({ beginsText := false, answer := .done, holder := .session start } :: ms, s.cursor)
  | stream steps =>
    let start := TokenStream.ofCursor c
    let (ms, s) := performAll TokenStream.moment start steps
    ({ beginsText := false, answer := .done, holder := .stream start } :: ms, s.cursor)

/-- The moments of a client program, one behind each step. -/
def Program.moments (c : Cursor) (program : Program) : List Moment :=
  (performAll Episode.moments c program).1.flatten

/-! ## Moments and entries -/

/-- Performing steps and then looking at what they give is the same as looking at it step by
step. -/
theorem performAll_eq_map {α σ β γ : Type} (perform : σ → α → β × σ) (observe : σ → α → γ × σ)
    (f : γ → β) (h : ∀ s a, perform s a = (f (observe s a).1, (observe s a).2)) (s : σ)
    (as : List α) :
    performAll perform s as =
      ((performAll observe s as).1.map f, (performAll observe s as).2) := by
  induction as generalizing s with
  | nil => rfl
  | cons a as ih => simp only [performAll, h, ih, List.map_cons]

theorem Episode.run_eq_moments (c : Cursor) (e : Episode) :
    e.run c = ((e.moments c).1.map Moment.entry, (e.moments c).2) := by
  cases e with
  | step x => rfl
  | session steps =>
    have hsteps := performAll_eq_map (fun (s : Session) x => ((s.perform x).2.entry (s.perform x).1,
      (s.perform x).2)) Session.moment Moment.entry fun _ _ => rfl
    simp only [run, moments, hsteps]
    rfl
  | stream steps =>
    have hsteps := performAll_eq_map (fun (s : TokenStream) x => (Entry.stream (s.perform x).1,
      (s.perform x).2)) TokenStream.moment Moment.entry fun _ _ => rfl
    simp only [run, moments, hsteps]
    rfl

/-- A client sees the moments of its program, and the program leaves what they lead to. -/
theorem Program.run_eq_moments (c : Cursor) (program : Program) :
    program.run c =
      ((program.moments c).map Moment.entry, (performAll Episode.moments c program).2) := by
  have hepisodes := performAll_eq_map Episode.run Episode.moments (List.map Moment.entry)
    Episode.run_eq_moments
  simp only [run, moments, hepisodes, List.map_flatten]

/-! ## Single steps -/

/-- What one step may do to a cursor. It begins a new text or leads on by reads, it looks up the
line where the cursor stands, and the faults it tells of arise there. -/
structure Moment.Follows (m : Moment) (c : Cursor) : Prop where
  cursor : if m.beginsText then m.cursor = c.beginText else c.ReadsTo m.cursor
  line : ∀ n, m.answer = .line n → n = m.cursor.line
  arisesAt : ∀ f, m.answer.Tells f → f.ArisesAt m.cursor

theorem Cursor.follows_moment (c : Cursor) (x : CursorStep) : (c.moment x).1.Follows c := by
  cases x with
  | read =>
    refine ⟨c.readsTo_read, by simp [moment, perform], fun f hf => ?_⟩
    cases hf with
    | byte h => exact arisesAt_of_read h
  | unread b => exact ⟨c.readsTo_unread b, by simp [moment, perform], by rintro f ⟨⟩⟩
  | beginText => exact ⟨rfl, by simp [moment, perform], by rintro f ⟨⟩⟩
  | line => exact ⟨.refl c, fun n h => (Answer.line.inj h).symm, by rintro f ⟨⟩⟩
  | position => exact ⟨.refl c, by simp [moment, perform], by rintro f ⟨⟩⟩
  | tokens =>
    refine ⟨c.readsTo_tokens, by simp [moment, perform], fun f hf => ?_⟩
    cases hf with
    | tokens h => exact arisesAt_of_tokens h

theorem Session.follows_moment (s : Session) (x : SessionStep) :
    (s.moment x).1.Follows s.cursor := by
  cases x with
  | restart => exact ⟨rfl, by simp [moment, perform], by rintro f ⟨⟩⟩
  | advance =>
    refine ⟨s.readsTo_advance, by simp [moment, perform], fun f hf => ?_⟩
    cases hf with
    | advanced h => exact arisesAt_of_advance h
  | current => exact ⟨.refl s.cursor, by simp [moment, perform], by rintro f ⟨⟩⟩
  | line => exact ⟨.refl s.cursor, fun n h => (Answer.line.inj h).symm, by rintro f ⟨⟩⟩

theorem TokenStream.follows_moment (s : TokenStream) (x : StreamStep) :
    (s.moment x).1.Follows s.cursor := by
  cases x with
  | pull =>
    refine ⟨s.readsTo_pull, by simp [moment, perform], fun f hf => ?_⟩
    cases hf with
    | pulled h => exact arisesAt_of_pull h
  | drain =>
    refine ⟨s.readsTo_drain, by simp [moment, perform], fun f hf => ?_⟩
    cases hf with
    | drained h => exact arisesAt_of_mem_drain h

/-! ## Courses -/

/-- Steps that follow one another, from the first cursor to the last. -/
inductive Course : Cursor → List Moment → Cursor → Prop where
  | stop (c : Cursor) : Course c [] c
  | step {c d : Cursor} {m : Moment} {ms : List Moment} (h : m.Follows c)
      (hrest : Course m.cursor ms d) : Course c (m :: ms) d

theorem Course.trans {c d e : Cursor} {ms ms' : List Moment} (h : Course c ms d)
    (h' : Course d ms' e) : Course c (ms ++ ms') e := by
  induction h with
  | stop => exact h'
  | step hstep _ ih => exact .step hstep (ih h')

/-- To open a session or a stream leaves the cursor as it is. -/
theorem Course.of_opening {c d : Cursor} {holder : Holder} {ms : List Moment}
    (hholder : holder.cursor = c) (h : Course c ms d) :
    Course c ({ beginsText := false, answer := .done, holder } :: ms) d := by
  subst hholder
  exact .step ⟨.refl _, by simp, by rintro f ⟨⟩⟩ h

/-- Steps of one kind that each follow are a course. -/
theorem course_performAll {α σ : Type} (cursor : σ → Cursor) (moment : σ → α → Moment × σ)
    (hcursor : ∀ s a, (moment s a).1.cursor = cursor (moment s a).2)
    (hfollows : ∀ s a, (moment s a).1.Follows (cursor s)) (s : σ) (as : List α) :
    Course (cursor s) (performAll moment s as).1 (cursor (performAll moment s as).2) := by
  induction as generalizing s with
  | nil => exact .stop _
  | cons a as ih =>
    have hrest := ih (moment s a).2
    rw [← hcursor] at hrest
    exact .step (hfollows s a) hrest

theorem Episode.course_moments (c : Cursor) (e : Episode) :
    Course c (e.moments c).1 (e.moments c).2 := by
  cases e with
  | step x => exact .step (c.follows_moment x) (.stop _)
  | session steps =>
    exact .of_opening rfl (course_performAll Session.cursor Session.moment (fun _ _ => rfl)
      Session.follows_moment (Session.begin c) steps)
  | stream steps =>
    exact .of_opening rfl (course_performAll TokenStream.cursor TokenStream.moment (fun _ _ => rfl)
      TokenStream.follows_moment (TokenStream.ofCursor c) steps)

/-- The moments of a client program are a course, from the cursor that the program is given to the
one that it leaves. -/
theorem Program.course_moments (c : Cursor) (program : Program) :
    Course c (program.moments c) (program.run c).2 := by
  rw [run_eq_moments]
  unfold moments
  induction program generalizing c with
  | nil => exact .stop c
  | cons e es ih => exact (e.course_moments c).trans (ih (e.moments c).2)

/-! ## The counter -/

/-- The signals that were still to come when the last text began, after some moments. At first they
are the given ones. -/
def textStart (signals : List Signal) (ms : List Moment) : List Signal :=
  ms.foldl (fun start m => if m.beginsText then m.cursor.rest.signals else start) signals

/-- What a step keeps: the line counts the line feeds delivered since the text began. -/
theorem Moment.Follows.readsTo {m : Moment} {c : Cursor} {name : String} {start : List Signal}
    (h : m.Follows c) (hc : (Cursor.facing name 1 start).ReadsTo c) :
    (Cursor.facing name 1 (textStart start [m])).ReadsTo m.cursor ∧
      textStart start [m] <:+ start := by
  have hstart : textStart start [m] = if m.beginsText then m.cursor.rest.signals else start := rfl
  have hcursor := h.cursor
  by_cases hbegins : m.beginsText = true
  · rw [if_pos hbegins] at hcursor hstart
    obtain ⟨taken, hrest, -⟩ := hc.rest
    rw [Script.signals_unchunked] at hrest
    rw [hstart, hcursor]
    exact ⟨.facing_signals hc.name rfl, taken, hrest.symm⟩
  · rw [if_neg hbegins] at hcursor hstart
    rw [hstart]
    exact ⟨hc.trans hcursor, List.suffix_rfl⟩

/-- What a course keeps, at every moment of it. -/
theorem Course.readsTo_of_split {c d : Cursor} {ms : List Moment} (h : Course c ms d)
    {name : String} {start : List Signal} (hc : (Cursor.facing name 1 start).ReadsTo c)
    {before after : List Moment} {m : Moment} (hms : ms = before ++ m :: after) :
    (Cursor.facing name 1 (textStart start (before ++ [m]))).ReadsTo m.cursor ∧
      textStart start (before ++ [m]) <:+ start ∧ (∀ n, m.answer = .line n → n = m.cursor.line) ∧
      ∀ f, m.answer.Tells f → f.ArisesAt m.cursor := by
  induction h generalizing start before with
  | stop => simp at hms
  | @step c d m' ms hstep _ ih =>
    obtain ⟨hreads, hsuffix⟩ := hstep.readsTo hc
    rcases before with _ | ⟨x, before⟩
    · obtain ⟨rfl, -⟩ := List.cons.inj hms
      exact ⟨hreads, hsuffix, hstep.line, hstep.arisesAt⟩
    · obtain ⟨rfl, hrest⟩ := List.cons.inj hms
      obtain ⟨hm, hmsuffix, hanswer⟩ := ih hreads hrest
      exact ⟨hm, hmsuffix.trans hsuffix, hanswer⟩

/-- Behind every step of every client program, the line is the one behind the bytes that the reader
has delivered since the last text began, and so one more than the number of line feeds among them,
unless the script holds so many that 32 bits cannot count them. What the client sees are these
moments. A fault that a step tells of is an illegal byte, on this line of the input, or a failed
read, which has no place. -/
theorem Program.line_counts (name : String) (script : Script) (program : Program) :
    let start := Cursor.ofScript name script
    let moments := program.moments start
    (program.run start).1 = moments.map Moment.entry ∧
    ∀ before m after, moments = before ++ m :: after →
      (∃ earlier since, script.signals = earlier ++ since ++ m.cursor.rest.signals ∧
        textStart script.signals (before ++ [m]) = since ++ m.cursor.rest.signals ∧
        m.cursor.line = Cursor.lineBehind 1 (since.filterMap Signal.byte?) ∧
        (script.signals.count (.byte Byte.newline) < UInt32.size - 1 →
          m.cursor.line.toNat = 1 + since.count (.byte Byte.newline))) ∧
      (∀ n, m.answer = .line n → n = m.cursor.line) ∧
      ∀ f, m.answer.Tells f →
        (∃ b, f = .illegalByte b ⟨m.cursor.line, name⟩) ∨
          ∃ e, f = .cannotRead name e ∧ f.position? = none := by
  intro start moments
  refine ⟨by rw [run_eq_moments], fun before m after hsplit => ?_⟩
  have hstart : (Cursor.facing name 1 script.signals).ReadsTo start :=
    .facing_signals (c := start) rfl rfl
  obtain ⟨hreads, ⟨earlier, hsuffix⟩, hline, hfaults⟩ :=
    (program.course_moments start).readsTo_of_split hstart hsplit
  obtain ⟨since, hrest, hcount⟩ := hreads.rest
  rw [Script.signals_unchunked] at hrest
  have hsignals : script.signals = earlier ++ since ++ m.cursor.rest.signals := by
    rw [← hsuffix, List.append_assoc, hrest]
  refine ⟨⟨earlier, since, hsignals, hrest, hcount, fun hbound => ?_⟩, hline, fun f hf => ?_⟩
  · rw [hsignals, List.count_append, List.count_append, ← Signal.count_filterMap_byte? _ since]
      at hbound
    rw [hcount, Cursor.toNat_lineBehind_one (by omega), Signal.count_filterMap_byte?]
  · have hname : m.cursor.name = name := hreads.name
    rcases hfaults f hf with ⟨b, rfl⟩ | ⟨e, rfl⟩
    · exact .inl ⟨b, by rw [Cursor.position, hname]⟩
    · exact .inr ⟨e, by rw [hname], rfl⟩

-- Neither the line feed that is pending at the start of a text nor one that is handed back is
-- counted when it is read.
example : ((Program.moments (Cursor.ofScript "input" [.data (utf8 "\n\nx")])
      [.step .read, .step .read, .step (.unread Byte.newline), .step .read, .step .read,
        .step .beginText, .step .read]).map (·.cursor.line)) = [1, 2, 2, 2, 3, 1, 1] := by
  decide

end ArithLex
