import ArithLex.Log
import ArithLex.Session
import ArithLex.Sink

/-!
# Listings

A listing writes one line a token to a sink, each as soon as its token is found, and flushes the
sink when the input has come to its end. The first fault ends it, whether it lies in opening the
input, in the input, or in the sink; what has been written by then stays written. The records of a
listing are kept in the order in which they are made.

The loop (`Session.list`) scans with a session and lists the token in its slot. As for collecting
tokens, what was in the slot before plays no part, so that a listing can be said in terms of the
cursor alone (`Listing.continueFrom_eq`).
-/

namespace ArithLex

/-- A listing that has ended. -/
structure Listing where
  /-- The number of tokens listed, or the fault that ended the listing. -/
  outcome : Except Fault Nat
  /-- The sink with all that was written to it. -/
  sink : Sink
  /-- What happened, in order. -/
  records : List Record

namespace Session

/-- Writes the token in the slot to a sink as a line, and gives the number of tokens listed by then.
-/
def listCurrent (s : Session) (sink : Sink) (count : Nat) : Except Fault Nat × Sink :=
  match s.current with
  | none => (.ok count, sink)
  | some t =>
    match sink.write (utf8 t.line) with
    | (none, sink) => (.ok (count + 1), sink)
    | (some e, sink) => (.error (.cannotWrite e), sink)

/-- Lists the tokens that a session finds, after `count` tokens and the records in `log`. The scan
that finds a token records it, before its line is written. -/
def list (s : Session) (sink : Sink) (count : Nat) (log : Array Record) : Listing :=
  match h : s.advance with
  | (.item t, s') =>
    have : s'.cursor.size < s.cursor.size := size_advance_lt h
    let log := log.push (.scanned s'.line t)
    match s'.listCurrent sink count with
    | (.ok count, sink) => s'.list sink count log
    | (.error f, sink) => { outcome := .error f, sink, records := log.toList }
  | (.ended, s') =>
    let log := log.push (.endOfInput s'.line)
    match sink.flush with
    | (none, sink) => { outcome := .ok count, sink, records := (log.push (.finished count)).toList }
    | (some e, sink) => { outcome := .error (.cannotWrite e), sink, records := log.toList }
  | (.fault f, _) => { outcome := .error f, sink, records := log.toList }
termination_by s.cursor.size

theorem list_eq (s : Session) (sink : Sink) (count : Nat) (log : Array Record) :
    s.list sink count log = match s.advance with
      | (.item t, s') => match s'.listCurrent sink count with
        | (.ok count, sink) => s'.list sink count (log.push (.scanned s'.line t))
        | (.error f, sink) =>
          { outcome := .error f, sink, records := (log.push (.scanned s'.line t)).toList }
      | (.ended, s') => match sink.flush with
        | (none, sink) =>
          { outcome := .ok count, sink
            records := ((log.push (.endOfInput s'.line)).push (.finished count)).toList }
        | (some e, sink) =>
          { outcome := .error (.cannotWrite e), sink
            records := (log.push (.endOfInput s'.line)).toList }
      | (.fault f, _) => { outcome := .error f, sink, records := log.toList } := by
  rw [list]
  split <;> simp_all

/-- A listing does not depend on the token that was current before. -/
theorem list_congr {s s' : Session} (h : s.cursor = s'.cursor) (sink : Sink) (count : Nat)
    (log : Array Record) : s.list sink count log = s'.list sink count log := by
  rw [list_eq, list_eq s', advance, advance, h]
  rcases s'.cursor.nextToken with ⟨t | _ | f, c⟩ <;> rfl

end Session

namespace Listing

/-- Lists the tokens from a cursor on. -/
def continueFrom (c : Cursor) (sink : Sink) (count : Nat) (log : Array Record) : Listing :=
  (Session.begin c).list sink count log

/-- Lists the tokens of the input at a path, given what opening it gave. The session is restarted
before its first scan. -/
def ofInput (path : String) (opened : Except IoFailure Script) (sink : Sink) : Listing :=
  match opened with
  | .error e => { outcome := .error (.cannotOpen path e), sink, records := [] }
  | .ok script =>
    (Session.begin (Cursor.ofScript path script)).restart.list sink 0 #[.opened path]

/-- The token that a scan finds is listed, and then those behind it. -/
theorem continueFrom_eq (c : Cursor) (sink : Sink) (count : Nat) (log : Array Record) :
    continueFrom c sink count log = match c.nextToken with
      | (.item t, c') => match sink.write (utf8 t.line) with
        | (none, s) => continueFrom c' s (count + 1) (log.push (.scanned c'.line t))
        | (some e, s) =>
          { outcome := .error (.cannotWrite e), sink := s,
            records := (log.push (.scanned c'.line t)).toList }
      | (.ended, c') => match sink.flush with
        | (none, s) =>
          { outcome := .ok count, sink := s,
            records := ((log.push (.endOfInput c'.line)).push (.finished count)).toList }
        | (some e, s) =>
          { outcome := .error (.cannotWrite e), sink := s,
            records := (log.push (.endOfInput c'.line)).toList }
      | (.fault f, _) => { outcome := .error f, sink, records := log.toList } := by
  rw [continueFrom, Session.list_eq, Session.advance, Session.begin]
  rcases c.nextToken with ⟨t | _ | f, c'⟩
  · simp only [Session.listCurrent, Session.line]
    rcases sink.write (utf8 t.line) with ⟨_ | e, s⟩
    · have hsame : (⟨c', some t⟩ : Session).cursor = (Session.begin c').cursor := rfl
      exact Session.list_congr hsame s (count + 1) _
    · rfl
  · rfl
  · rfl

/-- A restart changes nothing where a text begins. -/
theorem ofInput_ok (path : String) (script : Script) (sink : Sink) :
    ofInput path (.ok script) sink =
      continueFrom (Cursor.ofScript path script) sink 0 #[.opened path] :=
  rfl

end Listing

end ArithLex
