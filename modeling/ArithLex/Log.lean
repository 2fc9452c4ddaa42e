import ArithLex.Fault
import ArithLex.Token

/-!
# The log

A run of the program tells a log what it does: what was opened, each token with the line reached
behind it, and how the run ended. Each of these is a record, and what the log is told of a record is
an event: a level, a target, a message and fields with their values. Which events are kept, and what
text is written for those that are, is for the log to say.
-/

namespace ArithLex

/-! ## Levels -/

/-- How detailed an event is, the most severe level first. -/
inductive Level where
  | error
  | warn
  | info
  | debug
  | trace
deriving DecidableEq, Repr

namespace Level

/-- The place of a level in the order from severe to detailed. -/
def rank : Level → Nat
  | error => 0
  | warn => 1
  | info => 2
  | debug => 3
  | trace => 4

/-- The name by which a log is set to a level. -/
def name : Level → String
  | error => "error"
  | warn => "warn"
  | info => "info"
  | debug => "debug"
  | trace => "trace"

end Level

/-! ## Events -/

/-- The value of a field of an event. -/
inductive FieldValue where
  | number (n : Nat)
  | text (s : String)
  /-- The text by which a value of any other type shows itself. -/
  | shown (s : String)
deriving DecidableEq, Repr

/-- What the log is told. -/
structure LogEvent where
  level : Level
  /-- The part of the program that the event comes from. -/
  target : String
  message : String
  /-- The circumstances, each with its name. -/
  fields : List (String × FieldValue)
deriving DecidableEq, Repr

/-! ## Records -/

/-- What a run of the program tells the log of. -/
inductive Record where
  /-- The input file has been opened. -/
  | opened (path : String)
  /-- A scan found a token and left the input on this line. -/
  | scanned (line : UInt32) (token : Token)
  /-- A scan met the end of the input on this line. -/
  | endOfInput (line : UInt32)
  /-- A listing is complete. -/
  | finished (count : Nat)
  /-- The run has ended with a fault. -/
  | aborted (category : Fault.Category)
deriving DecidableEq, Repr

namespace Record

/-- The target of the events about the program as a whole. -/
def programTarget : String := "arith_scanner"

/-- The target of the events about the input and its tokens. -/
def inputTarget : String := "arith_scanner::lexer"

/-- What the log is told of a record. -/
def event : Record → LogEvent
  | opened path => ⟨.debug, inputTarget, "opened input", [("file", .shown path)]⟩
  | scanned line token =>
    ⟨.trace, inputTarget, "scanned",
      [("line", .number line.toNat), ("token", .shown token.text)]⟩
  | endOfInput line => ⟨.debug, inputTarget, "end of input", [("line", .number line.toNat)]⟩
  | finished count => ⟨.debug, programTarget, "scan finished", [("count", .number count)]⟩
  | aborted category => ⟨.debug, programTarget, "scan aborted", [("kind", .text category.name)]⟩

end Record

end ArithLex
