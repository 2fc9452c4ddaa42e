import Mathlib.Data.List.Count
import ArithLex.Proofs.Concatenation
import ArithLex.Proofs.LineCounter
import ArithLex.Proofs.OneScan

/-!
# The current token

A session shows the token that was found last since it was opened or told to begin a new text, and
none if there is no such token (`FoundLast`). One step keeps this (`Session.foundLast_moment`), and
so it holds at every moment of a session (`Session.foundLast_of_split`).

A scan that finds no token leaves the current one alone. Where a read fails behind digits, these
leave no trace at all: the session is the same as if they had not stood there
(`Session.advance_of_failure`). A token that is found is all of what is written ahead
(`Cursor.exists_written_of_nextToken`).

The main result is `Session.current_token`, for every cursor and all steps of a session.
-/

namespace ArithLex

/-! ## The last find -/

/-- Of the tokens found since a text began, `t` is the last. -/
def FoundLast (ms : List Moment) (t : Token) : Prop :=
  ∃ earlier m later, ms = earlier ++ m :: later ∧ m.answer = .advanced (.item t) ∧
    ∀ x ∈ later, x.beginsText = false ∧ ∀ u, x.answer ≠ .advanced (.item u)

/-- A moment finds the last token itself, or it leaves the one that was found before. -/
theorem foundLast_concat {ms : List Moment} {m : Moment} {t : Token} :
    FoundLast (ms ++ [m]) t ↔ m.answer = .advanced (.item t) ∨
      FoundLast ms t ∧ m.beginsText = false ∧ ∀ u, m.answer ≠ .advanced (.item u) := by
  constructor
  · rintro ⟨earlier, x, later, hsplit, hx, hlater⟩
    rcases List.eq_nil_or_concat later with rfl | ⟨later, y, rfl⟩
    · obtain ⟨-, hm⟩ := List.append_inj' hsplit rfl
      obtain rfl : m = x := List.singleton_inj.1 hm
      exact .inl hx
    · -- the find lies before the last moment
      rw [List.concat_eq_append, ← List.cons_append, ← List.append_assoc] at hsplit
      obtain ⟨rfl, hm⟩ := List.append_inj' hsplit rfl
      obtain rfl : m = y := List.singleton_inj.1 hm
      exact .inr ⟨⟨earlier, x, later, rfl, hx, fun z hz => hlater z (by simp [hz])⟩,
        hlater m (by simp)⟩
  · rintro (hm | ⟨⟨earlier, x, later, rfl, hx, hlater⟩, hm⟩)
    · exact ⟨ms, m, [], rfl, hm, by simp⟩
    · refine ⟨earlier, x, later ++ [m], by simp, hx, ?_⟩
      intro y hy
      rcases List.mem_append.1 hy with hy | hy
      · exact hlater y hy
      · rwa [List.mem_singleton.1 hy]

namespace Session

/-- What a step of a session keeps: the current token is the one that was found last. -/
theorem foundLast_moment {s : Session} {ms : List Moment}
    (h : ∀ t, s.current = some t ↔ FoundLast ms t) (x : SessionStep) (t : Token) :
    (s.moment x).2.current = some t ↔ FoundLast (ms ++ [(s.moment x).1]) t := by
  rw [foundLast_concat, ← h]
  cases x with
  | restart => simp [moment, perform, restart, begin]
  | advance =>
    simp only [moment, perform, current_advance]
    rcases s.advance.1 with u | _ | f
    · simp
    · simp
    · simp
  | current => simp [moment, perform]
  | line => simp [moment, perform]

/-- Whoever looks up the current token is told what the session holds. -/
theorem eq_current_of_answer {s : Session} {x : SessionStep} {u : Option Token}
    (h : (s.moment x).1.answer = .current u) : u = (s.moment x).2.current := by
  cases x with
  | restart => simp [moment, perform] at h
  | advance => simp [moment, perform] at h
  | current => exact (Answer.current.inj h).symm
  | line => simp [moment, perform] at h

/-- At every moment of a session, the current token is the one that was found last. -/
theorem foundLast_of_split {s : Session} {ms : List Moment}
    (h : ∀ t, s.current = some t ↔ FoundLast ms t) {steps : List SessionStep}
    {before after : List Moment} {m : Moment}
    (hsplit : (performAll moment s steps).1 = before ++ m :: after) :
    ∃ s', m.holder = .session s' ∧ (∀ u, m.answer = .current u → u = s'.current) ∧
      ∀ t, s'.current = some t ↔ FoundLast (ms ++ (before ++ [m])) t := by
  induction steps generalizing s ms before with
  | nil => simp [performAll] at hsplit
  | cons x steps ih =>
    have hstep := foundLast_moment h x
    rcases before with _ | ⟨first, before⟩
    · obtain ⟨rfl, -⟩ := List.cons.inj hsplit
      exact ⟨(s.moment x).2, rfl, fun u => eq_current_of_answer, hstep⟩
    · obtain ⟨hfirst, hrest⟩ := List.cons.inj hsplit
      obtain ⟨s', hholder, hanswer, hcurrent⟩ := ih hstep hrest
      change (s.moment x).1 = first at hfirst
      rw [hfirst] at hcurrent
      exact ⟨s', hholder, hanswer, by simpa using hcurrent⟩

end Session

/-! ## What a scan has found -/

namespace Cursor

/-- A token that is found is written at the start of the lexemes ahead, and a literal is written by
all digits that stand there. They have been followed by a byte or by the end of the input. -/
theorem exists_written_of_nextToken {c : Cursor} {t : Token} (h : c.nextToken.1 = .item t) :
    ∃ written after, c.lexemes = written ++ after ∧ t.WrittenAs written ∧
      (t.value?.isSome → startsWithDigit after = false ∧
        ∀ e he rest, after = [] → Signal.fromBarrier c.rest.signals ≠ .failure e he :: rest) := by
  have htakes := c.takes_nextToken
  have hfst : c.unchunked.nextToken.1 = c.nextToken.1 := by rw [c.nextToken_unchunked]
  rw [← hfst] at h
  generalize c.unchunked.nextToken = r at h htakes
  cases htakes with
  | nothing line _ =>
    rcases Signal.fromBarrier_cases c.rest.signals with hb | ⟨rest, hb⟩ | ⟨e, he, rest, hb⟩ <;>
      simp [hb, Barrier.ofSignals, Barrier.settle] at h
  | @single b after line hlex _ _ =>
    cases hop : Operator.ofByte? b with
    | none => simp [hop] at h
    | some o =>
      obtain rfl : Token.op o = t := by simpa [hop] using h
      refine ⟨[b], after, hlex, ?_, by simp [Token.value?]⟩
      rw [← Operator.ofByte?_eq_some_iff.1 hop]
      rfl
  | @digitsByte digits after b line hlex hne hdigits hb =>
    obtain rfl : Token.lit (Numeral.wrapped digits) = t := by simpa using h
    exact ⟨digits, b :: after, hlex, Token.writtenAs_wrapped hne hdigits,
      fun _ => ⟨hb, by simp⟩⟩
  | @digitsBarrier digits line hlex hne hdigits =>
    -- a failure would have taken the place of the literal
    have hbarrier : ∀ e he rest, Signal.fromBarrier c.rest.signals ≠ .failure e he :: rest := by
      intro e he rest hb
      simp [hb, Barrier.ofSignals, Barrier.settle] at h
    obtain rfl : Token.lit (Numeral.wrapped digits) = t := by
      rcases Signal.fromBarrier_cases c.rest.signals with hb | ⟨rest, hb⟩ | ⟨e, he, rest, hb⟩
      · simpa [hb, Barrier.ofSignals, Barrier.settle] using h
      · simpa [hb, Barrier.ofSignals, Barrier.settle] using h
      · exact absurd hb (hbarrier e he rest)
    exact ⟨digits, [], by rw [hlex, List.append_nil], Token.writtenAs_wrapped hne hdigits,
      fun _ => ⟨rfl, fun e he rest _ => hbarrier e he rest⟩⟩

/-- Where only digits stand before a failure, a scan reports the failure and goes on behind it. -/
theorem nextToken_of_failure {c : Cursor} {e : IoFailure} {he : e.isRetried = false}
    {rest : List Signal} (hlex : ∀ b ∈ c.lexemes, b.isDigit = true)
    (hbarrier : Signal.fromBarrier c.rest.signals = .failure e he :: rest) :
    c.nextToken.1 = .fault (.cannotRead c.name e) ∧ c.nextToken.2.unchunked =
      facing c.name (lineBehind c.line (Signal.bytesAhead c.rest.signals)) rest := by
  have hscan : ∃ line, c.unchunked.nextToken =
      (.fault (.cannotRead c.name e), facing c.name line rest) := by
    have htakes := c.takes_nextToken
    generalize c.unchunked.nextToken = r at htakes
    cases htakes with
    | nothing line _ =>
      rw [hbarrier]
      exact ⟨line, rfl⟩
    | @single b after line h _ hb =>
      have hdigit := hlex b (by simp [h])
      rw [hb] at hdigit
      contradiction
    | @digitsByte digits after b line h _ _ hb =>
      have hdigit := hlex b (by simp [h])
      rw [hb] at hdigit
      contradiction
    | digitsBarrier line _ _ _ =>
      rw [hbarrier]
      exact ⟨line, rfl⟩
  obtain ⟨line, hscan⟩ := hscan
  -- the reader has delivered all bytes before the failure, and the failure
  obtain ⟨taken, hrest, hline⟩ := c.unchunked.readsTo_nextToken.rest
  have hfront := Signal.bytesAhead_append_fromBarrier c.rest.signals
  generalize Signal.bytesAhead c.rest.signals = front at hfront ⊢
  have htaken : taken = front.map .byte ++ [.failure e he] := by
    rw [hscan, unchunked, Script.signals_unchunked, Script.signals_unchunked] at hrest
    rw [hbarrier, List.append_cons, hrest] at hfront
    exact (List.append_cancel_right hfront).symm
  have hbytes : taken.filterMap Signal.byte? = front := by
    rw [htaken, List.filterMap_append, List.filterMap_map]
    simp [Function.comp_def]
  rw [hscan, hbytes] at hline
  rw [c.nextToken_unchunked] at hscan
  refine ⟨congrArg Prod.fst hscan, ?_⟩
  calc c.nextToken.2.unchunked = facing c.name line rest := congrArg Prod.snd hscan
    _ = facing c.name (lineBehind c.line front) rest := congrArg (facing c.name · rest) hline

end Cursor

/-- A read that fails behind digits leaves nothing of them: what comes of the scan is settled by
what stands before and behind them. -/
theorem Session.advance_of_failure {s : Session} {e : IoFailure} {he : e.isRetried = false}
    {rest : List Signal} (hlex : ∀ b ∈ s.cursor.lexemes, b.isDigit = true)
    (hbarrier : Signal.fromBarrier s.cursor.rest.signals = .failure e he :: rest) :
    let line := Cursor.lineBehind s.cursor.line (Signal.bytesAhead s.cursor.rest.signals)
    s.advance.1 = .fault (.cannotRead s.cursor.name e) ∧ s.advance.2.current = s.current ∧
      s.advance.2.cursor.unchunked = Cursor.facing s.cursor.name line rest := by
  obtain ⟨hresult, hleft⟩ := Cursor.nextToken_of_failure hlex hbarrier
  have hfault := s.fst_advance.trans hresult
  refine ⟨hfault, current_advance_of_not_item (by rw [hfault]; simp), ?_⟩
  rw [cursor_advance, hleft]

/-! ## Sessions -/

/-- At every moment of a session, whatever its steps and wherever it was opened, the current token
is the one that was found last since the session was opened or began a new text, and there is none
if none was found; this is also what looking it up gives. A scan that finds no token leaves the
current one as it was. A token that is found is written ahead of this scan, and a literal by all
digits that stand there, with no failure behind them. Where digits do stand before a failure, the
scan reports the failure, and the session is then the same as without the digits, so that they are
part of no later literal either. -/
theorem Session.current_token (c : Cursor) (steps : List SessionStep) :
    let moments := (Episode.moments c (.session steps)).1
    ((Episode.session steps).run c).1 = moments.map Moment.entry ∧
    (∀ before m after, moments = before ++ m :: after →
      ∃ s, m.holder = .session s ∧ (∀ u, m.answer = .current u → u = s.current) ∧
        ∀ t, s.current = some t ↔ FoundLast (before ++ [m]) t) ∧
    ∀ s : Session,
      ((∀ t, s.advance.1 ≠ .item t) → s.advance.2.current = s.current) ∧
      (∀ t, s.advance.1 = .item t → ∃ written after, s.cursor.lexemes = written ++ after ∧
        t.WrittenAs written ∧
        (t.value?.isSome → startsWithDigit after = false ∧ ∀ e he rest, after = [] →
          Signal.fromBarrier s.cursor.rest.signals ≠ .failure e he :: rest)) ∧
      ∀ e he rest, (∀ b ∈ s.cursor.lexemes, b.isDigit = true) →
        Signal.fromBarrier s.cursor.rest.signals = .failure e he :: rest →
        let line := Cursor.lineBehind s.cursor.line (Signal.bytesAhead s.cursor.rest.signals)
        s.advance.1 = .fault (.cannotRead s.cursor.name e) ∧ s.advance.2.current = s.current ∧
          s.advance.2.cursor.unchunked = Cursor.facing s.cursor.name line rest := by
  intro moments
  refine ⟨by rw [Episode.run_eq_moments], ?_, fun s => ⟨current_advance_of_not_item, ?_, ?_⟩⟩
  · intro before m after hsplit
    have hopening : ∀ t, (begin c).current = some t ↔
        FoundLast [{ beginsText := false, answer := .done, holder := .session (begin c) }] t := by
      intro t
      rw [← List.nil_append [_], foundLast_concat]
      simp [begin, FoundLast]
    rcases before with _ | ⟨first, before⟩
    · obtain ⟨rfl, -⟩ := List.cons.inj hsplit
      exact ⟨begin c, rfl, by simp, hopening⟩
    · obtain ⟨rfl, hrest⟩ := List.cons.inj hsplit
      exact foundLast_of_split hopening hrest
  · intro t ht
    rw [fst_advance] at ht
    exact Cursor.exists_written_of_nextToken ht
  · intro e he rest hlex hbarrier
    exact advance_of_failure hlex hbarrier

-- The digits before the failure are neither shown nor part of the literal behind it.
example : ((Session.begin (.ofScript "input"
      [.data (utf8 "+23"), .failure ⟨.other, "lost"⟩, .data (utf8 "4")])).advances 3) =
    ([.item (.op .plus), .fault (.cannotRead "input" ⟨.other, "lost"⟩), .item (.lit 4)],
      ⟨Cursor.facing "input" 1 [], some (.lit 4)⟩) := by
  decide +kernel

end ArithLex
