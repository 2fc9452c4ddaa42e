import ArithLex.Proofs.LineCounter
import ArithLex.Proofs.Run
import ArithLex.Proofs.Shift

/-!
# A byte handed back and a byte to come

A cursor that has a byte pending is compared with one whose script has still to deliver this byte.
Reads give the same on both, but only the second counts a line feed. Where the text stands further
down, a client program sees the same with higher lines, until it begins a new text
(`Program.moments_down`). A program that reads first sees nothing else of a cursor than what this
read gives (`Program.moments_congr`), so that the two cursors differ in the lines alone, and a
client that reads a byte and hands it back has changed nothing for a later read.

The main result is `Program.run_of_pending`.
-/

namespace ArithLex

/-! ## Moving what a client sees -/

/-- The answer of a text that stands `k` lines further down. -/
def Answer.down (k : UInt32) : Answer → Answer
  | done => done
  | byte r => byte (r.down k)
  | line n => line (n + k)
  | position place => position { place with line := place.line + k }
  | tokens r => tokens (r.mapError (Fault.down k))
  | advanced r => advanced (r.down k)
  | current t => current t
  | pulled r => pulled (r.map (Except.mapError (Fault.down k)))
  | drained items => drained (items.map (Except.mapError (Fault.down k)))

/-- What a client sees of a text that stands `k` lines further down. -/
def Entry.down (k : UInt32) : Entry → Entry
  | cursor answer line => cursor (answer.down k) (line + k)
  | session answer current line => session (answer.down k) current (line + k)
  | stream answer => stream (answer.down k)

/-- The same session, `k` lines further down. -/
def Session.down (k : UInt32) (s : Session) : Session :=
  (Cursor.downView k).session s

/-- The same token stream, `k` lines further down. -/
def TokenStream.down (k : UInt32) (s : TokenStream) : TokenStream :=
  (Cursor.downView k).stream s

/-- The same holder, `k` lines further down. -/
def Holder.down (k : UInt32) : Holder → Holder
  | client c => client (c.down k)
  | session s => session (s.down k)
  | stream s => stream (s.down k)

/-- The same moment, `k` lines further down. -/
def Moment.down (k : UInt32) (m : Moment) : Moment where
  beginsText := m.beginsText
  answer := m.answer.down k
  holder := m.holder.down k

/-- The same moments in a text that stands `k` lines further down. When a new text begins, lines
count from one again, wherever the old one stood. -/
def movedDown (k : UInt32) : List Moment → List Moment
  | [] => []
  | m :: ms => if m.beginsText then m :: ms else m.down k :: movedDown k ms

/-- What a client sees of a text that stands `k` lines further down, until it begins a new text. -/
def entriesDown (k : UInt32) : List Moment → List Entry
  | [] => []
  | m :: ms =>
    if m.beginsText then (m :: ms).map Moment.entry else m.entry.down k :: entriesDown k ms

theorem Moment.entry_down (k : UInt32) (m : Moment) : (m.down k).entry = m.entry.down k := by
  obtain ⟨_, answer, holder⟩ := m
  cases holder <;> rfl

theorem map_entry_movedDown (k : UInt32) (ms : List Moment) :
    (movedDown k ms).map Moment.entry = entriesDown k ms := by
  induction ms with
  | nil => rfl
  | cons m ms ih =>
    by_cases hm : m.beginsText = true
    · rw [movedDown, entriesDown, if_pos hm, if_pos hm]
    · rw [movedDown, entriesDown, if_neg hm, if_neg hm, List.map_cons, m.entry_down, ih]

/-- Whether a new text begins at some of the moments. -/
def anyBeginsText (ms : List Moment) : Bool :=
  ms.any Moment.beginsText

theorem anyBeginsText_append (ms ms' : List Moment) :
    anyBeginsText (ms ++ ms') = (anyBeginsText ms || anyBeginsText ms') :=
  List.any_append

theorem movedDown_append (k : UInt32) (ms ms' : List Moment) :
    movedDown k (ms ++ ms') =
      movedDown k ms ++ if anyBeginsText ms then ms' else movedDown k ms' := by
  induction ms with
  | nil => rfl
  | cons m ms ih =>
    by_cases hm : m.beginsText = true
    · simp [movedDown, anyBeginsText, hm]
    · simp only [anyBeginsText] at ih
      simp [movedDown, anyBeginsText, hm, ih]

/-! ## Steps further down -/

theorem Cursor.moment_down (k : UInt32) (c : Cursor) (x : CursorStep) :
    (c.down k).moment x = if (c.moment x).1.beginsText then c.moment x
      else ((c.moment x).1.down k, (c.moment x).2.down k) := by
  cases x with
  | read =>
    simp only [moment, perform, read_down]
    rfl
  | unread b => rfl
  | beginText => rfl
  | line => rfl
  | position => rfl
  | tokens =>
    simp only [moment, perform, tokens_down]
    rfl

theorem Session.moment_down (k : UInt32) (s : Session) (x : SessionStep) :
    (s.down k).moment x = if (s.moment x).1.beginsText then s.moment x
      else ((s.moment x).1.down k, (s.moment x).2.down k) := by
  cases x with
  | restart => rfl
  | advance =>
    have hadvance := (Cursor.downView k).advance s
    rw [show (Cursor.downView k).rename = Fault.down k from rfl, ← Pull.down_eq] at hadvance
    simp only [moment, perform, down, hadvance]
    rfl
  | current => rfl
  | line => rfl

theorem TokenStream.moment_down (k : UInt32) (s : TokenStream) (x : StreamStep) :
    (s.down k).moment x = if (s.moment x).1.beginsText then s.moment x
      else ((s.moment x).1.down k, (s.moment x).2.down k) := by
  cases x with
  | pull =>
    have hpull := (Cursor.downView k).pull s
    simp only [moment, perform, down, hpull]
    rfl
  | drain =>
    have hdrain := (Cursor.downView k).drain s
    simp only [moment, perform, down, hdrain]
    rfl

/-! ## Programs further down -/

/-- Steps that can each be taken further down can be taken there one after the other. -/
theorem performAll_down {α σ : Type} (k : UInt32) (step : σ → α → Moment × σ) (down : σ → σ)
    (h : ∀ s a, step (down s) a = if (step s a).1.beginsText then step s a
      else ((step s a).1.down k, down (step s a).2)) (s : σ) (as : List α) :
    performAll step (down s) as =
      let r := performAll step s as
      (movedDown k r.1, if anyBeginsText r.1 then r.2 else down r.2) := by
  induction as generalizing s with
  | nil => rfl
  | cons a as ih =>
    simp only [performAll, h]
    by_cases hbegins : (step s a).1.beginsText = true
    · simp [movedDown, anyBeginsText, hbegins]
    · simp only [anyBeginsText] at ih
      simp [movedDown, anyBeginsText, hbegins, ih]

theorem Episode.moments_down (k : UInt32) (c : Cursor) (e : Episode) :
    e.moments (c.down k) =
      let r := e.moments c
      (movedDown k r.1, if anyBeginsText r.1 then r.2 else r.2.down k) := by
  cases e with
  | step x =>
    simp only [moments, Cursor.moment_down]
    by_cases hbegins : (c.moment x).1.beginsText = true
    · simp [movedDown, anyBeginsText, hbegins]
    · simp [movedDown, anyBeginsText, hbegins]
  | session steps =>
    have hsteps := performAll_down k Session.moment (Session.down k) (Session.moment_down k)
      (Session.begin c) steps
    have hbegin : Session.begin (c.down k) = (Session.begin c).down k := rfl
    simp only [moments, hbegin, hsteps, apply_ite Session.cursor]
    rfl
  | stream steps =>
    have hsteps := performAll_down k TokenStream.moment (TokenStream.down k)
      (TokenStream.moment_down k) (TokenStream.ofCursor c) steps
    have hopen : TokenStream.ofCursor (c.down k) = (TokenStream.ofCursor c).down k := rfl
    simp only [moments, hopen, hsteps, apply_ite TokenStream.cursor]
    rfl

theorem Program.moments_cons (c : Cursor) (e : Episode) (program : Program) :
    Program.moments c (e :: program) = (e.moments c).1 ++ program.moments (e.moments c).2 := rfl

theorem Program.snd_run_cons (c : Cursor) (e : Episode) (program : Program) :
    (Program.run c (e :: program)).2 = (program.run (e.moments c).2).2 := by
  rw [run_eq_moments, run_eq_moments]
  rfl

/-- Further down, a client program sees the same with higher lines, until it begins a new text. -/
theorem Program.moments_down (k : UInt32) (c : Cursor) (program : Program) :
    program.moments (c.down k) = movedDown k (program.moments c) ∧
      (program.run (c.down k)).2 = if anyBeginsText (program.moments c) then (program.run c).2
        else (program.run c).2.down k := by
  induction program generalizing c with
  | nil => exact ⟨rfl, rfl⟩
  | cons e program ih =>
    rw [moments_cons, moments_cons, snd_run_cons, snd_run_cons, e.moments_down, movedDown_append,
      anyBeginsText_append]
    cases hbegins : anyBeginsText (e.moments c).1 with
    | true => simp [hbegins]
    | false =>
      -- no text has begun yet, so that the rest of the program runs further down
      obtain ⟨hmoments, hcursor⟩ := ih (e.moments c).2
      simp [hbegins, hmoments, hcursor]

/-! ## Programs that read first -/

/-- The first operation of the program reads. To open a session or a token stream is not an
operation on the cursor. -/
inductive Program.ReadsFirst : Program → Prop where
  | read (after : Program) : ReadsFirst (.step .read :: after)
  | tokens (after : Program) : ReadsFirst (.step .tokens :: after)
  | advance (steps : List SessionStep) (after : Program) :
      ReadsFirst (.session (.advance :: steps) :: after)
  | pull (steps : List StreamStep) (after : Program) :
      ReadsFirst (.stream (.pull :: steps) :: after)
  | drain (steps : List StreamStep) (after : Program) :
      ReadsFirst (.stream (.drain :: steps) :: after)
  | unusedSession {program : Program} (h : ReadsFirst program) :
      ReadsFirst (.session [] :: program)
  | unusedStream {program : Program} (h : ReadsFirst program) :
      ReadsFirst (.stream [] :: program)

/-- The number of sessions and token streams that are opened before the first operation. -/
def Program.openings : Program → Nat
  | [] => 0
  | .step _ :: _ => 0
  | .session [] :: after => openings after + 1
  | .session (_ :: _) :: _ => 1
  | .stream [] :: after => openings after + 1
  | .stream (_ :: _) :: _ => 1

variable {c d : Cursor}

theorem Session.moment_advance_congr (h : c.nextToken = d.nextToken) :
    (begin c).moment .advance = (begin d).moment .advance := by
  have hadvance : (begin c).advance = (begin d).advance := advance_congr h rfl
  simp only [moment, perform, hadvance]

theorem TokenStream.pull_congr (h : c.nextToken = d.nextToken) :
    (ofCursor c).pull = (ofCursor d).pull := by
  rw [ofCursor, ofCursor, Session.begin, Session.begin, pull_eq, pull_eq, h]

theorem TokenStream.drain_congr (h : c.nextToken = d.nextToken) :
    (ofCursor c).drain = (ofCursor d).drain := by
  rw [drain_eq, drain_eq (ofCursor d), pull_congr h]

/-- A program that reads first sees nothing of its cursor but what this read gives. -/
theorem Program.moments_congr (h : c.read = d.read) {program : Program}
    (hfirst : program.ReadsFirst) :
    (program.moments c).drop program.openings = (program.moments d).drop program.openings ∧
      (program.run c).2 = (program.run d).2 := by
  have hscan := Cursor.nextToken_congr h
  induction hfirst with
  | read after =>
    simp only [moments_cons, snd_run_cons, Episode.moments, Cursor.moment, Cursor.perform, h,
      and_self]
  | tokens after =>
    have htokens := Cursor.tokens_congr hscan
    simp only [moments_cons, snd_run_cons, Episode.moments, Cursor.moment, Cursor.perform, htokens,
      and_self]
  | advance steps after =>
    have hadvance := Session.moment_advance_congr hscan
    simp only [moments_cons, snd_run_cons, Episode.moments, performAll, hadvance, and_true]
    rfl
  | pull steps after =>
    have hpull := TokenStream.pull_congr hscan
    simp only [moments_cons, snd_run_cons, Episode.moments, performAll, TokenStream.moment,
      TokenStream.perform, hpull, and_true]
    rfl
  | drain steps after =>
    have hdrain := TokenStream.drain_congr hscan
    simp only [moments_cons, snd_run_cons, Episode.moments, performAll, TokenStream.moment,
      TokenStream.perform, hdrain, and_true]
    rfl
  | unusedSession _ ih =>
    rw [snd_run_cons, snd_run_cons]
    exact ih
  | unusedStream _ ih =>
    rw [snd_run_cons, snd_run_cons]
    exact ih

/-- What a client sees before the first operation are lines where the cursor stands. -/
theorem Program.take_run_openings (hline : c.line = d.line) {program : Program}
    (hfirst : program.ReadsFirst) :
    (program.run c).1.take program.openings = (program.run d).1.take program.openings := by
  have hopened : (Session.begin c).entry .done = (Session.begin d).entry .done := by
    simp only [Session.entry, Session.line, Session.begin, hline]
  induction hfirst with
  | read after => rfl
  | tokens after => rfl
  | advance steps after => exact congrArg ([·]) hopened
  | pull steps after => rfl
  | drain steps after => rfl
  | unusedSession _ ih => exact congrArg₂ (· :: ·) hopened ih
  | unusedStream _ ih => exact congrArg (_ :: ·) ih

/-- No text begins before the first operation. -/
theorem Program.movedDown_openings (k : UInt32) (c : Cursor) {program : Program}
    (hfirst : program.ReadsFirst) :
    (movedDown k (program.moments c)).drop program.openings =
        movedDown k ((program.moments c).drop program.openings) ∧
      anyBeginsText (program.moments c) =
        anyBeginsText ((program.moments c).drop program.openings) := by
  induction hfirst with
  | read after => exact ⟨rfl, rfl⟩
  | tokens after => exact ⟨rfl, rfl⟩
  | advance steps after => exact ⟨rfl, rfl⟩
  | pull steps after => exact ⟨rfl, rfl⟩
  | drain steps after => exact ⟨rfl, rfl⟩
  | unusedSession _ ih => exact ih
  | unusedStream _ ih => exact ih

/-- A byte that was read and handed back is read as it was read before. -/
theorem Cursor.read_unread_of_item {b : Byte} (h : c.read.1 = .item b) :
    (c.read.2.unread b).read = c.read := by
  have hnone : { c.read.2 with pending := none } = c.read.2 := by
    rw [← c.pending_read]
  calc (c.read.2.unread b).read = (.item b, { c.read.2 with pending := none }) := rfl
    _ = c.read := by rw [hnone, ← h]

namespace Program

/-- The entries of a program are its first ones and those of the moments behind them. -/
theorem fst_run_eq_append (c : Cursor) (program : Program) (n : Nat) :
    (program.run c).1 =
      (program.run c).1.take n ++ ((program.moments c).drop n).map Moment.entry := by
  rw [run_eq_moments, List.map_drop, List.take_append_drop]

/-- A client that reads a byte, hands it back and then reads again sees what it would have seen
without this. -/
theorem run_peek {b : Byte} (h : c.read.1 = .item b) {program : Program}
    (hfirst : program.ReadsFirst) :
    let peeking : Program := .step .read :: .step (.unread b) :: program
    (peeking.run c).1.drop (2 + program.openings) = (program.run c).1.drop program.openings ∧
      (peeking.run c).2 = (program.run c).2 := by
  intro peeking
  obtain ⟨hmoments, hcursor⟩ := moments_congr (Cursor.read_unread_of_item h) hfirst
  have hpeek : (peeking.run c).1 = .cursor (.byte c.read.1) c.read.2.line ::
      .cursor .done c.read.2.line :: (program.run (c.read.2.unread b)).1 := rfl
  refine ⟨?_, hcursor⟩
  rw [hpeek, Nat.add_comm, List.drop_succ_cons, List.drop_succ_cons, run_eq_moments,
    run_eq_moments, ← List.map_drop, ← List.map_drop, hmoments]

/-- A byte that is pending is as good as one that the script has still to deliver. A program whose
first operation reads sees the same on both cursors at every step, whatever it does then; only if
the byte is a line feed, all lines are one lower where it was pending, until the program begins a
new text. Therefore to read a byte and to hand it back changes nothing for a program that reads
first, on any cursor: behind the lines that are seen when sessions are opened, all entries are the
same. -/
theorem run_of_pending (name : String) (b : Byte) (line : UInt32) (rest : Script)
    {program : Program} (hfirst : program.ReadsFirst) :
    let pending : Cursor := ⟨name, some b, line, rest⟩
    let ahead : Cursor := ⟨name, none, line, .data [b] :: rest⟩
    let k := UInt32.ofNat ([b].count Byte.newline)
    let opening := (program.run pending).1.take program.openings
    let seen := (program.moments pending).drop program.openings
    (program.run pending).1 = opening ++ seen.map Moment.entry ∧
    (program.run ahead).1 = opening ++ entriesDown k seen ∧
    (program.run ahead).2 = (if anyBeginsText seen then (program.run pending).2
      else (program.run pending).2.down k) ∧
    (b ≠ Byte.newline → program.run ahead = program.run pending) ∧
    ∀ c : Cursor, c.read.1 = .item b →
      let peeking : Program := .step .read :: .step (.unread b) :: program
      (peeking.run c).1.drop (2 + program.openings) = (program.run c).1.drop program.openings ∧
        (peeking.run c).2 = (program.run c).2 := by
  intro pending ahead k opening seen
  have hahead : ahead.read = (.item b, ⟨name, none, Cursor.lineAfter line b, rest⟩) := rfl
  have hread : ahead.read = (pending.down k).read := by
    rw [hahead, ← Cursor.lineBehind_singleton]
    rfl
  have hline : ahead.line = pending.line := rfl
  have hopening : (program.run ahead).1.take program.openings = opening :=
    take_run_openings hline hfirst
  obtain ⟨hmoments, hcursor⟩ := moments_congr hread hfirst
  obtain ⟨hmoved, hmovedCursor⟩ := moments_down k pending program
  obtain ⟨hdrop, hany⟩ := movedDown_openings k pending hfirst
  have hseen : (program.moments ahead).drop program.openings = movedDown k seen := by
    rw [← hdrop, ← hmoved]
    exact hmoments
  refine ⟨fst_run_eq_append pending program program.openings, ?_, ?_, ?_,
    fun c h => run_peek h hfirst⟩
  · rw [fst_run_eq_append ahead program program.openings, hopening, hseen, map_entry_movedDown]
  · rw [← hany, ← hmovedCursor]
    exact hcursor
  · intro hb
    have hpending : ahead.read = pending.read := by
      rw [hahead, Cursor.lineAfter_of_ne hb]
      rfl
    obtain ⟨hsame, hsameCursor⟩ := moments_congr hpending hfirst
    refine Prod.ext ?_ hsameCursor
    rw [fst_run_eq_append ahead program program.openings, hopening,
      fst_run_eq_append pending program program.openings]
    exact congrArg (opening ++ ·.map Moment.entry) hsame

/-- A line feed that was pending is not counted. -/
theorem run_of_pending_newline :
    let program : Program := [.step .read, .step .line, .step .beginText, .step .line]
    (program.run ⟨"input", some Byte.newline, 1, []⟩).1 =
        [.cursor (.byte (.item Byte.newline)) 1, .cursor (.line 1) 1, .cursor .done 1,
          .cursor (.line 1) 1] ∧
      (program.run ⟨"input", none, 1, [.data [Byte.newline]]⟩).1 =
        [.cursor (.byte (.item Byte.newline)) 2, .cursor (.line 2) 2, .cursor .done 1,
          .cursor (.line 1) 1] := by
  intro program
  have hfirst : program.ReadsFirst := .read _
  obtain ⟨hpending, hahead, -⟩ := run_of_pending "input" Byte.newline 1 [] hfirst
  exact ⟨hpending, hahead⟩

end Program

end ArithLex
