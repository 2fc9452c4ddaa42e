import ArithLex.Byte

/-!
# Input scripts

What a reader of bytes will meet is written down in advance as a script: chunks of data, ends of
input, and failures. An end of input is one event, and data may follow it. This file also says which
signals single-byte reads are to meet, one after the other (`Script.signals`). Chunk borders and
interrupted reads leave no trace there: a signal is a byte, an end of input, or a failure that is
reported. The script with one event for each of some signals is `Script.unchunked`.
-/

namespace ArithLex

/-! ## Failures of the outside world -/

/-- The kind of an input or output failure. -/
inductive IoFailure.Kind where
  | notFound
  | permissionDenied
  | interrupted
  | wouldBlock
  | timedOut
  | unexpectedEof
  | brokenPipe
  | invalidData
  | other
deriving DecidableEq, Repr

/-- A failure of an input or output operation: its kind, and the text that explains it. Messages
show the text alone. -/
structure IoFailure where
  kind : IoFailure.Kind
  text : String
deriving DecidableEq, Repr

namespace IoFailure

/-- An interrupted read or write is tried again in silence, so that nobody hears of it. -/
def isRetried (e : IoFailure) : Bool :=
  e.kind == .interrupted

theorem isRetried_eq_false {e : IoFailure} (h : ¬e.isRetried = true) : e.isRetried = false :=
  Bool.eq_false_iff.2 h

end IoFailure

/-! ## Events and signals -/

/-- One event of an input script. -/
inductive Event where
  | data (bytes : List Byte)
  | finish
  | failure (e : IoFailure)
deriving DecidableEq, Repr

/-- A finite input script. Once it is used up, every further read meets the end of input. -/
abbrev Script := List Event

/-- What a read of one byte is to meet: a byte, an end of input, or a failure that is reported. -/
inductive Signal where
  | byte (b : Byte)
  | finish
  | failure (e : IoFailure) (reported : e.isRetried = false)
deriving DecidableEq, Repr

namespace Signal

/-- The byte that a signal delivers, if it delivers one. -/
def byte? : Signal → Option Byte
  | byte b => some b
  | finish => none
  | failure _ _ => none

/-- Whether a signal delivers a byte of the class `p`. -/
def delivers (p : Byte → Bool) : Signal → Bool
  | byte b => p b
  | finish => false
  | failure _ _ => false

/-- The event that gives nothing but the signal. -/
def event : Signal → Event
  | byte b => .data [b]
  | finish => .finish
  | failure e _ => .failure e

@[simp] theorem byte?_byte (b : Byte) : (byte b).byte? = some b := rfl

@[simp] theorem byte?_finish : finish.byte? = none := rfl

@[simp] theorem byte?_failure (e : IoFailure) (h : e.isRetried = false) :
    (failure e h).byte? = none := rfl

@[simp] theorem delivers_byte (p : Byte → Bool) (b : Byte) : (byte b).delivers p = p b := rfl

@[simp] theorem delivers_finish (p : Byte → Bool) : finish.delivers p = false := rfl

@[simp] theorem delivers_failure (p : Byte → Bool) (e : IoFailure) (h : e.isRetried = false) :
    (failure e h).delivers p = false := rfl

end Signal

namespace Event

/-- The signals of one event: a byte each for data, and none for an interrupted read. -/
def signals : Event → List Signal
  | data bytes => bytes.map .byte
  | finish => [.finish]
  | failure e => if h : e.isRetried then [] else [.failure e (IoFailure.isRetried_eq_false h)]

@[simp] theorem signals_data (bytes : List Byte) : (data bytes).signals = bytes.map .byte := rfl

@[simp] theorem signals_finish : finish.signals = [.finish] := rfl

theorem signals_failure_of_isRetried {e : IoFailure} (h : e.isRetried = true) :
    (failure e).signals = [] :=
  dif_pos h

theorem signals_failure {e : IoFailure} (h : e.isRetried = false) :
    (failure e).signals = [.failure e h] :=
  dif_neg (Bool.eq_false_iff.1 h)

@[simp] theorem signals_event (x : Signal) : x.event.signals = [x] := by
  rcases x with b | _ | ⟨e, h⟩
  · rfl
  · rfl
  · exact signals_failure h

end Event

namespace Script

/-- The signals of a script, in the order in which single-byte reads are to meet them. -/
def signals (script : Script) : List Signal :=
  script.flatMap Event.signals

/-- What is left of a chunk, in front of the script behind it. -/
def consChunk (bytes : List Byte) (script : Script) : Script :=
  if bytes.isEmpty then script else .data bytes :: script

/-- The script of a reader that delivers the given bytes in one chunk and never fails. -/
def ofBytes (bytes : List Byte) : Script :=
  consChunk bytes []

/-- The script that gives each of some signals by an event of its own. -/
def unchunked (signals : List Signal) : Script :=
  signals.map Signal.event

@[simp] theorem signals_nil : signals [] = [] := rfl

@[simp] theorem signals_cons (e : Event) (script : Script) :
    signals (e :: script) = e.signals ++ signals script := rfl

@[simp] theorem signals_append (s t : Script) : signals (s ++ t) = signals s ++ signals t := by
  simp [signals]

@[simp] theorem signals_consChunk (bytes : List Byte) (script : Script) :
    signals (consChunk bytes script) = bytes.map .byte ++ signals script := by
  cases bytes <;> rfl

@[simp] theorem signals_ofBytes (bytes : List Byte) :
    signals (ofBytes bytes) = bytes.map .byte := by
  simp [ofBytes]

@[simp] theorem signals_unchunked (signals : List Signal) :
    (unchunked signals).signals = signals := by
  induction signals with
  | nil => rfl
  | cons x signals ih =>
    rw [unchunked, List.map_cons, signals_cons, Event.signals_event]
    exact congrArg (x :: ·) ih

end Script

end ArithLex
