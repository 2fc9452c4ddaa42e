import ArithLex.Listing

/-!
# The command line

The program takes the path of one input, lists its tokens on the standard output, and reports a
fault on the standard error, behind what the log writes there. The exit code says whether there was
anything to report.

What the program does not decide itself is given by its host: what opening a path gives, which
events the log keeps and what it writes for them, and what a panic leaves.
-/

namespace ArithLex

/-! ## Arguments -/

/-- The program was called with a wrong number of arguments. -/
structure UsageError where
  program : String
deriving DecidableEq, Repr

/-- The line that explains how the program is called. -/
def UsageError.message (e : UsageError) : String :=
  "Usage: " ++ e.program ++ " infile"

/-- What the arguments ask for. -/
structure Invocation where
  /-- The path of the input. -/
  input : String
deriving DecidableEq, Repr

namespace Invocation

/-- The name of the program, where its caller does not say under which name it was called. -/
def defaultProgram : String := "arith_scanner"

/-- Reads the arguments, of which the first is the program's name. Exactly one more is wanted. -/
def ofArgs : List String → Except UsageError Invocation
  | [_, input] => .ok { input }
  | args => .error { program := args.headD defaultProgram }

end Invocation

/-- The texts that the arguments of a process encode, if every one of them is valid UTF-8. -/
def decodeArgs (argv : List ByteArray) : Option (List String) :=
  argv.mapM String.fromUTF8?

theorem fromUTF8?_eq_some_iff {b : ByteArray} {s : String} :
    String.fromUTF8? b = some s ↔ b = s.toUTF8 := by
  constructor
  · intro h
    unfold String.fromUTF8? at h
    split at h
    · rw [← Option.some.inj h]
      rfl
    · contradiction
  · rintro rfl
    exact dif_pos s.isValidUTF8

/-- Texts are read as they were written, and nothing else is read. -/
theorem decodeArgs_eq_some_iff {argv : List ByteArray} {args : List String} :
    decodeArgs argv = some args ↔ argv = args.map String.toUTF8 := by
  induction argv generalizing args with
  | nil => cases args <;> simp [decodeArgs]
  | cons b argv ih =>
    rw [decodeArgs] at ih ⊢
    simp only [List.mapM_cons, Option.bind_eq_bind, Option.bind_eq_some_iff,
      fromUTF8?_eq_some_iff, ih]
    cases args <;> simp

/-! ## Surroundings -/

/-- What a run of the program depends on and does not decide itself. -/
structure Host where
  /-- What opening a path gives: the events that reads will meet, or why there are none. -/
  openPath : String → Except IoFailure Script
  /-- Whether the log keeps an event, if it is set by the given text. -/
  keeps : String → LogEvent → Bool
  /-- What the log writes for an event that it keeps, given how many it has kept before. -/
  logText : Nat → LogEvent → String
  /-- What a panic over arguments writes that are not valid UTF-8. -/
  panicText : List ByteArray → String

namespace Host

/-- Whether an event is kept. A log that is not set keeps none. -/
def keepsUnder (host : Host) (setting : Option String) (e : LogEvent) : Bool :=
  setting.any (host.keeps · e)

/-- What the log writes for the events that it keeps: a text for each, in order. -/
def transcript (host : Host) (kept : List LogEvent) : String :=
  String.join (kept.mapIdx host.logText)

end Host

/-! ## Runs -/

/-- What a run of the program leaves. -/
structure Outcome where
  /-- The bytes that reached the standard output. -/
  stdout : Array Byte
  /-- The text on the standard error. -/
  stderr : String
  exitCode : UInt8
deriving DecidableEq, Repr

/-- A run before the log has chosen what to keep: the output, all records, and how the run ends. -/
structure Run where
  stdout : Array Byte
  records : List Record
  /-- What stands on the standard error behind the log. -/
  report : String
  exitCode : UInt8
deriving DecidableEq, Repr

namespace Run

/-- A run that lists the input of an invocation. A fault is recorded last, and reported. -/
def ofListing (l : Listing) : Run :=
  match l.outcome with
  | .ok _ => { stdout := l.sink.held, records := l.records, report := "", exitCode := 0 }
  | .error f =>
    { stdout := l.sink.held
      records := l.records ++ [.aborted f.category]
      report := "Error: " ++ f.message ++ "\n"
      exitCode := 1 }

/-- A run with the given arguments. -/
def ofArgs (host : Host) (args : List String) (sink : Sink) : Run :=
  match Invocation.ofArgs args with
  | .error e => { stdout := sink.held, records := [], report := e.message ++ "\n", exitCode := 1 }
  | .ok i => ofListing (Listing.ofInput i.input (host.openPath i.input) sink)

/-- A run of a process with the given arguments. An argument that is not valid UTF-8 ends it at
once. -/
def ofArgv (host : Host) (argv : List ByteArray) (sink : Sink) : Run :=
  match decodeArgs argv with
  | none =>
    { stdout := sink.held, records := [], report := host.panicText argv, exitCode := 101 }
  | some args => ofArgs host args sink

/-- The events that the log is told. -/
def events (r : Run) : List LogEvent :=
  r.records.map Record.event

/-- What is left of a run when the log has chosen what to keep. -/
def outcome (r : Run) (host : Host) (setting : Option String) : Outcome where
  stdout := r.stdout
  stderr := host.transcript (r.events.filter (host.keepsUnder setting)) ++ r.report
  exitCode := r.exitCode

end Run

/-- Runs the program, with the log set by a text if there is one. -/
def runProgram (host : Host) (setting : Option String) (argv : List ByteArray) (sink : Sink) :
    Outcome :=
  (Run.ofArgv host argv sink).outcome host setting

end ArithLex
