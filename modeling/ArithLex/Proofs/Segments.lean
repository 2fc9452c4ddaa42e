import ArithLex.Proofs.Items

/-!
# Scanning across ends of input and failures

Ends of input and reported failures are the barriers of a script. They cut its data into segments
(`Script.segments`), and a session that scans on behind every result lists the items of one segment
after the other, each followed by what its barrier adds. A barrier behind digits belongs to the
literal that they are: an end of input ends the literal and is used up, so that it adds nothing, and
a failure takes the place of the literal. Anywhere else a barrier is a result of its own.

The main result is `fst_advances_script`, for every script and every number of scans.
-/

namespace ArithLex

/-! ## Segments of a script -/

/-- What ends a segment: an end of input, or a failure that is reported. -/
inductive Barrier where
  | finish
  | failure (e : IoFailure) (reported : e.isRetried = false)
deriving Repr

/-- The signal of a barrier. -/
def Barrier.signal : Barrier → Signal
  | finish => .finish
  | failure e h => .failure e h

/-- The data up to a barrier, and the barrier. -/
structure Segment where
  bytes : List Byte
  barrier : Barrier
deriving Repr

/-- The signals of a segment. -/
def Segment.signals (g : Segment) : List Signal :=
  g.bytes.map .byte ++ [g.barrier.signal]

namespace Script

/-- The segments of a script, and the data behind its last barrier. -/
def segments : Script → List Segment × List Byte
  | [] => ([], [])
  | .data bytes :: script =>
    match segments script with
    | ([], last) => ([], bytes ++ last)
    | (g :: gs, last) => ({ g with bytes := bytes ++ g.bytes } :: gs, last)
  | .finish :: script => (⟨[], .finish⟩ :: (segments script).1, (segments script).2)
  | .failure e :: script =>
    if h : e.isRetried then segments script
    else
      (⟨[], .failure e (IoFailure.isRetried_eq_false h)⟩ :: (segments script).1,
        (segments script).2)

/-- Reads meet the segments of a script one after the other. -/
theorem signals_eq_segments (script : Script) :
    script.signals =
      script.segments.1.flatMap Segment.signals ++ script.segments.2.map .byte := by
  induction script with
  | nil => rfl
  | cons e script ih =>
    rw [signals_cons, ih]
    rcases e with bytes | _ | e
    · rcases h : segments script with ⟨_ | ⟨g, gs⟩, last⟩ <;>
        simp [segments, h, Segment.signals]
    · simp [segments, Segment.signals, Barrier.signal]
    · by_cases he : e.isRetried = true <;>
        simp [segments, he, Event.signals, Segment.signals, Barrier.signal]

end Script

/-! ## Results of a segment -/

/-- The items of a text that stands alone. -/
def textItems (name : String) (s : List Byte) : List (Pull Token) :=
  (Cursor.ofScript name (Script.ofBytes s)).items

/-- What a barrier makes of the items before it. `inDigits` says whether it comes right behind a
digit. -/
def Barrier.close (name : String) (inDigits : Bool) (found : List (Pull Token)) :
    Barrier → List (Pull Token)
  | finish => if inDigits then found else found ++ [.ended]
  | failure e _ => (if inDigits then found.dropLast else found) ++ [.fault (.cannotRead name e)]

/-- What scanning through a segment gives behind `lines` line feeds, counted in 32 bits. -/
def Segment.results (name : String) (lines : UInt32) (g : Segment) : List (Pull Token) :=
  g.barrier.close name (endsInDigit g.bytes) ((textItems name g.bytes).map (Pull.down lines))

/-- What scanning through segments and the data behind them gives, behind `lines` line feeds. -/
def segmentResults (name : String) : UInt32 → List Segment → List Byte → List (Pull Token)
  | lines, [], last => (textItems name last).map (Pull.down lines)
  | lines, g :: gs, last =>
    g.results name lines ++ segmentResults name (Cursor.lineBehind lines g.bytes) gs last

namespace Cursor

theorem textItems_eq (name : String) (s : List Byte) :
    textItems name s = (facing name 1 (s.map .byte)).items := by
  rw [textItems, ← items_unchunked, items_congr (nextToken_ofBytes name s)]

/-- In the middle of an input, the items of a text are those it has by itself, further down. -/
theorem items_facing (name : String) (lines : UInt32) (s : List Byte) :
    (facing name (1 + lines) (s.map .byte)).items =
      (textItems name s).map (Pull.down lines) := by
  rw [textItems_eq, ← items_down]
  rfl

/-- Scanning from the start of a segment to the place behind its barrier. -/
theorem scansTo_segment (name : String) (lines : UInt32) (g : Segment) (rest : List Signal) :
    ScansTo (facing name (1 + lines) (g.signals ++ rest)) (g.results name lines)
      (facing name (1 + lineBehind lines g.bytes) rest) := by
  -- the digits at the end of the segment are what the barrier may reach
  obtain ⟨bytes, barrier⟩ := g
  obtain ⟨front, digits, rfl, hfront, hdigits⟩ := exists_trailing_digits bytes
  have hsignals : Segment.signals ⟨front ++ digits, barrier⟩ ++ rest =
      front.map .byte ++ (digits.map .byte ++ barrier.signal :: rest) := by
    simp [Segment.signals]
  have hrun := scansTo_items_of_not_endsInDigit name (1 + lines) hfront
    (digits.map .byte ++ barrier.signal :: rest)
  rw [hsignals, Segment.results, ← items_facing, ← lineBehind_add_left]
  by_cases hne : digits = []
  · -- the barrier is a result of its own
    subst hne
    rw [List.append_nil, hfront]
    rcases barrier with _ | ⟨e, he⟩
    · exact hrun.trans (.single (nextToken_finish name _ rest) rfl)
    · exact hrun.trans (.single (nextToken_failure name _ e he rest) rfl)
  · -- the barrier ends the literal that the digits are
    have hwritten := Token.writtenAs_wrapped hne hdigits
    rw [items_append_digits name _ hfront hne hdigits,
      endsInDigit_append_digits front hne hdigits, lineBehind_append,
      lineBehind_of_count_eq_zero hwritten.count_newline]
    rcases barrier with _ | ⟨e, he⟩
    · exact hrun.trans (.single (nextToken_digits_finish name _ hne hdigits rest) rfl)
    · simp only [Barrier.close, if_true, List.dropLast_concat]
      exact hrun.trans (.single (nextToken_digits_failure name _ hne hdigits e he rest) rfl)

/-- Scanning through segments and the data behind them uses up the script. -/
theorem exists_scansTo_segments (name : String) (lines : UInt32) (gs : List Segment)
    (last : List Byte) :
    ∃ line, ScansTo (facing name (1 + lines) (gs.flatMap Segment.signals ++ last.map .byte))
      (segmentResults name lines gs last) (facing name line []) := by
  induction gs generalizing lines with
  | nil =>
    have hrun := scansTo_items name (1 + lines) (s := last) fun _ => endsLiteral_nil
    rw [List.append_nil, items_facing] at hrun
    exact ⟨_, hrun⟩
  | cons g gs ih =>
    obtain ⟨line, hrun⟩ := ih (lineBehind lines g.bytes)
    refine ⟨line, ?_⟩
    rw [List.flatMap_cons, List.append_assoc]
    exact (scansTo_segment name lines g _).trans hrun

end Cursor

/-- The last item of a text that ends in a digit is a literal. -/
theorem exists_getLast?_textItems (name : String) {s : List Byte} (h : endsInDigit s = true) :
    ∃ v, (textItems name s).getLast? = some (.item (.lit v)) := by
  obtain ⟨front, digits, rfl, hfront, hdigits⟩ := exists_trailing_digits s
  have hne : digits ≠ [] := by
    intro hnil
    rw [hnil, List.append_nil, hfront] at h
    contradiction
  rw [Cursor.textItems_eq, Cursor.items_append_digits name 1 hfront hne hdigits,
    List.getLast?_concat]
  exact ⟨_, rfl⟩

/-! ## The results of a session -/

/-- Scanning on behind every result gives, for every script, what its segments give one after the
other, and then the end of the input for ever. What a failure behind digits takes the place of is a
literal. -/
theorem fst_advances_script (name : String) (script : Script) (n : Nat) :
    ((Session.begin (Cursor.ofScript name script)).advances n).1 =
      (segmentResults name 0 script.segments.1 script.segments.2 ++
        List.replicate n Pull.ended).take n ∧
    ∀ g ∈ script.segments.1, endsInDigit g.bytes = true →
      ∃ v, (textItems name g.bytes).getLast? = some (.item (.lit v)) := by
  refine ⟨?_, fun g _ hg => exists_getLast?_textItems name hg⟩
  obtain ⟨line, hrun⟩ :=
    Cursor.exists_scansTo_segments name 0 script.segments.1 script.segments.2
  rw [← script.signals_eq_segments] at hrun
  have hstart : Cursor.ScansTo (Session.begin (Cursor.ofScript name script).unchunked).cursor
      (segmentResults name 0 script.segments.1 script.segments.2) (Cursor.facing name line []) :=
    .of_nextToken_eq (Cursor.nextToken_ofScript name script) hrun
  -- scan so often that the script is used up, and keep the first `n` results
  rw [← Session.fst_advances_unchunked, ← Session.fst_advances_take _ n, Nat.add_comm,
    Session.fst_advances_of_scansTo hstart, Session.fst_advances_facing_nil rfl]

-- The end of input behind `12` is used up, and the failure behind `4` takes its place; the end of
-- input behind `+` is a result of its own.
example : ((Session.begin (Cursor.ofScript "input" [.data (utf8 "12"), .finish, .data (utf8 "3 4"),
      .failure ⟨.timedOut, "late"⟩, .data (utf8 "+"), .finish])).advances 6).1 =
    [.item (.lit 12), .item (.lit 3), .fault (.cannotRead "input" ⟨.timedOut, "late"⟩),
      .item (.op .plus), .ended, .ended] := by
  cbv

end ArithLex
