import ArithLex.TokenStream

/-!
# Client programs

A client works on one cursor. It reads and hands back single bytes, collects all tokens at once, or
opens a session or a token stream and works on that for a while. A client program writes down these
steps; running it gives one entry a step, which holds what the client sees.

A session or a stream has the cursor to itself while it lasts, so a program is a list of episodes,
and the steps that belong to a session or a stream stand inside its episode.
-/

namespace ArithLex

/-! ## Steps -/

/-- A step on the cursor itself. -/
inductive CursorStep where
  | read
  | unread (b : Byte)
  | beginText
  | line
  | position
  | tokens
deriving DecidableEq, Repr

/-- A step on an open session. -/
inductive SessionStep where
  | restart
  | advance
  | current
  | line
deriving DecidableEq, Repr

/-- A step on an open token stream. -/
inductive StreamStep where
  | pull
  | drain
deriving DecidableEq, Repr

/-- A part of a client program: a step on the cursor, or a session or stream with its steps. -/
inductive Episode where
  | step (s : CursorStep)
  | session (steps : List SessionStep)
  | stream (steps : List StreamStep)
deriving DecidableEq, Repr

/-- A client program. -/
abbrev Program := List Episode

/-! ## Entries -/

/-- What a step answers. -/
inductive Answer where
  | done
  | byte (r : Pull Byte)
  | line (n : UInt32)
  | position (place : Position)
  | tokens (r : Except Fault (List Token))
  | advanced (r : Pull Token)
  | current (t : Option Token)
  | pulled (r : Option (Except Fault Token))
  | drained (items : List (Except Fault Token))

/-- What a client sees after a step: the answer, and of the state behind it as much as the holder of
the cursor or of the session can look up. -/
inductive Entry where
  | cursor (answer : Answer) (line : UInt32)
  | session (answer : Answer) (current : Option Token) (line : UInt32)
  | stream (answer : Answer)

/-! ## Running -/

/-- Performs steps in order, each on the state that the one before it left, and lists what they
give. -/
def performAll {α σ β : Type} (perform : σ → α → β × σ) : σ → List α → List β × σ
  | s, [] => ([], s)
  | s, a :: as =>
    let (b, s) := perform s a
    let (bs, s) := performAll perform s as
    (b :: bs, s)

namespace Cursor

/-- Performs one step on the cursor. -/
def perform (c : Cursor) : CursorStep → Answer × Cursor
  | .read => let (r, c) := c.read; (.byte r, c)
  | .unread b => (.done, c.unread b)
  | .beginText => (.done, c.beginText)
  | .line => (.line c.line, c)
  | .position => (.position c.position, c)
  | .tokens => let (r, c) := c.tokens; (.tokens r, c)

end Cursor

namespace Session

/-- Performs one step on a session. -/
def perform (s : Session) : SessionStep → Answer × Session
  | .restart => (.done, s.restart)
  | .advance => let (r, s) := s.advance; (.advanced r, s)
  | .current => (.current s.current, s)
  | .line => (.line s.line, s)

/-- What the holder of a session sees after an answer. -/
def entry (a : Answer) (s : Session) : Entry :=
  .session a s.current s.line

end Session

namespace TokenStream

/-- Performs one step on a token stream. -/
def perform (s : TokenStream) : StreamStep → Answer × TokenStream
  | .pull => let (r, s) := s.pull; (.pulled r, s)
  | .drain => let (items, s) := s.drain; (.drained items, s)

end TokenStream

/-- Runs an episode on a cursor. A session or a stream answers to its opening, too, and hands the
cursor back at the end. -/
def Episode.run (c : Cursor) : Episode → List Entry × Cursor
  | step s =>
    let (a, c) := c.perform s
    ([.cursor a c.line], c)
  | session steps =>
    let start := Session.begin c
    let record (s : Session) (x : SessionStep) : Entry × Session :=
      let (a, s) := s.perform x
      (s.entry a, s)
    let (entries, s) := performAll record start steps
    (start.entry .done :: entries, s.cursor)
  | stream steps =>
    let record (s : TokenStream) (x : StreamStep) : Entry × TokenStream :=
      let (a, s) := s.perform x
      (.stream a, s)
    let (entries, s) := performAll record (TokenStream.ofCursor c) steps
    (.stream .done :: entries, s.cursor)

/-- Runs a client program on a cursor. -/
def Program.run (c : Cursor) (program : Program) : List Entry × Cursor :=
  let (entries, c) := performAll Episode.run c program
  (entries.flatten, c)

end ArithLex
