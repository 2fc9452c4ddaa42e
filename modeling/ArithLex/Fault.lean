import ArithLex.Script

/-!
# Faults

A fault ends a scan, a listing or a run of the program. Each constructor is a cause. The texts are
written by `Fault.summary`, which says what went wrong, and `Fault.message`, which adds the line
for the faults that have one.
-/

namespace ArithLex

/-- A place in the source text: a line of a named input. Lines are counted from one, in 32 bits. -/
structure Position where
  line : UInt32
  name : String
deriving DecidableEq, Repr

/-- Why a scan or a listing stopped. -/
inductive Fault where
  /-- The byte starts no token. -/
  | illegalByte (b : Byte) (place : Position)
  /-- The input file cannot be opened. -/
  | cannotOpen (path : String) (cause : IoFailure)
  /-- A read of the named input failed. -/
  | cannotRead (name : String) (cause : IoFailure)
  /-- The listing cannot be written out. -/
  | cannotWrite (cause : IoFailure)
deriving DecidableEq, Repr

namespace Fault

/-! ## Classes of faults -/

/-- A fault lies in the source text or in the outside world. -/
inductive Category where
  | lexical
  | external
deriving DecidableEq, Repr

/-- The name by which a category is reported. -/
def Category.name : Category → String
  | lexical => "LexError"
  | external => "IOError"

/-- The category of a fault. -/
def category : Fault → Category
  | illegalByte _ _ => .lexical
  | cannotOpen _ _ => .external
  | cannotRead _ _ => .external
  | cannotWrite _ => .external

/-- Where a fault lies in the source text. -/
def position? : Fault → Option Position
  | illegalByte _ place => some place
  | cannotOpen _ _ => none
  | cannotRead _ _ => none
  | cannotWrite _ => none

/-- The failure behind a fault of the outside world. -/
def cause? : Fault → Option IoFailure
  | illegalByte _ _ => none
  | cannotOpen _ cause => some cause
  | cannotRead _ cause => some cause
  | cannotWrite cause => some cause

/-! ## Texts -/

/-- What went wrong, without the line. -/
def summary : Fault → String
  | illegalByte b _ => "unrecognised character '" ++ String.ofList b.escaped ++ "'"
  | cannotOpen path cause => "unable to open file " ++ path ++ ": " ++ cause.text
  | cannotRead name cause => "error reading " ++ name ++ ": " ++ cause.text
  | cannotWrite cause => "error writing tokens: " ++ cause.text

/-- What a message adds for a fault with a position. -/
def placeText : Option Position → String
  | some place => " on line " ++ toString place.line
  | none => ""

/-- The full text of a fault. -/
def message (f : Fault) : String :=
  f.summary ++ placeText f.position?

/-- The texts of a fault and of what lies behind it, outermost first. -/
def trail (f : Fault) : List String :=
  f.summary :: f.cause?.toList.map IoFailure.text

end Fault

/-! ## Results of asking for one more item -/

/-- What a request for the next item gives: an item, the end of the input, or a fault. -/
inductive Pull (α : Type) where
  | item (a : α)
  | ended
  | fault (f : Fault)
deriving DecidableEq, Repr

end ArithLex
