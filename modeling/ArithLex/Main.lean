import ArithLex.CommandLine

/-!
# The program

The host of the program on a real system: files are read from the file system, and the variable
`RUST_LOG` sets a plain log, to a level or to `TARGET=LEVEL`. What a run leaves is printed.
-/

namespace ArithLex

/-! ## Files -/

/-- What the system says of an error, and the number it gives it. -/
def explainError : IO.Error → String × UInt32
  | .alreadyExists _ code text => (text, code)
  | .otherError code text => (text, code)
  | .resourceBusy code text => (text, code)
  | .resourceVanished code text => (text, code)
  | .unsupportedOperation code text => (text, code)
  | .hardwareFault code text => (text, code)
  | .unsatisfiedConstraints code text => (text, code)
  | .illegalOperation code text => (text, code)
  | .protocolError code text => (text, code)
  | .timeExpired code text => (text, code)
  | .interrupted _ code text => (text, code)
  | .noFileOrDirectory _ code text => (text, code)
  | .invalidArgument _ code text => (text, code)
  | .permissionDenied _ code text => (text, code)
  | .resourceExhausted _ code text => (text, code)
  | .inappropriateType _ code text => (text, code)
  | .noSuchThing _ code text => (text, code)
  | .unexpectedEof => ("Unexpected end of file", 0)
  | .userError text => (text, 0)

/-- The kind of failure that an error of the system amounts to. -/
def IoFailure.Kind.ofError : IO.Error → IoFailure.Kind
  | .noFileOrDirectory .. => notFound
  | .permissionDenied .. => permissionDenied
  | .interrupted .. => interrupted
  | .timeExpired .. => timedOut
  | .resourceVanished .. => brokenPipe
  | .unexpectedEof => unexpectedEof
  | _ => other

/-- The failure that an error of the system amounts to. -/
def IoFailure.ofError (e : IO.Error) : IoFailure :=
  let (text, code) := explainError e
  { kind := .ofError e, text := text ++ " (os error " ++ toString code ++ ")" }

/-- Reads a file to its end or to a failure that is reported. The data read before a failure is
kept. -/
def readScript (handle : IO.FS.Handle) : IO Script := do
  let mut script := #[]
  let mut more := true
  while more do
    match ← (handle.read 8192).toBaseIO with
    | .error e =>
      let failure := IoFailure.ofError e
      script := script.push (Event.failure failure)
      more := failure.isRetried
    | .ok bytes =>
      script := script.push (Event.data bytes.toList)
      more := !bytes.isEmpty
  return script.toList

/-- Opens a file and reads what it holds. -/
def openFile (path : String) : IO (Except IoFailure Script) := do
  match ← (IO.FS.Handle.mk path .read).toBaseIO with
  | .error e => return .error (.ofError e)
  | .ok handle => return .ok (← readScript handle)

/-! ## The log -/

/-- Whether the level of an event is among those up to a level with the given name. -/
def LogEvent.isUpTo (e : LogEvent) (name : String) : Bool :=
  [Level.error, .warn, .info, .debug, .trace].any fun most =>
    most.name == name && e.level.rank ≤ most.rank

/-- Whether a plain log keeps an event. -/
def LogEvent.isKept (setting : String) (e : LogEvent) : Bool :=
  match setting.splitOn "=" with
  | [name] => e.isUpTo name
  | [target, name] => e.target.startsWith target && e.isUpTo name
  | _ => false

/-- The value of a field in a line of the log. -/
def FieldValue.show : FieldValue → String
  | number n => toString n
  | text s => "\"" ++ s ++ "\""
  | shown s => s

/-- An event as a line of the log. -/
def LogEvent.line (e : LogEvent) : String :=
  e.level.name.toUpper ++ " " ++ e.target ++ ": " ++ e.message ++
    String.join (e.fields.map fun (name, value) => " " ++ name ++ "=" ++ value.show) ++ "\n"

/-! ## Runs -/

/-- Writes bytes line by line. If a line is refused, gives the number of bytes before it, and the
failure. -/
def writeLines (out : IO.FS.Stream) (bytes : Array Byte) : IO (Option (Nat × IoFailure)) := do
  let mut taken := 0
  let mut line := ByteArray.empty
  for b in bytes do
    line := line.push b
    if b == Byte.newline then
      match ← (do out.write line; out.flush : IO Unit).toBaseIO with
      | .error e => return some (taken, .ofError e)
      | .ok () =>
        taken := taken + line.size
        line := ByteArray.empty
  return none

/-- Lists the tokens of the input named by the only argument, and gives the exit code. -/
def listTokens (args : List String) : IO UInt32 := do
  let args := (← IO.appPath).toString :: args
  let opened ← match Invocation.ofArgs args with
    | .ok i => openFile i.input
    | .error _ => pure (.ok [])
  let host : Host := {
    openPath := fun _ => opened
    keeps := LogEvent.isKept
    logText := fun _ e => e.line
    panicText := fun _ => "an argument is not valid UTF-8\n" }
  let setting ← IO.getEnv "RUST_LOG"
  let run (sink : Sink) : Outcome := runProgram host setting (args.map String.toUTF8) sink
  let whole := run {}
  -- a standard output that fills up is a sink of the size it proved to have
  let seen := match ← writeLines (← IO.getStdout) whole.stdout with
    | none => whole
    | some (taken, refusal) => run { capacity := some taken, refusal }
  IO.eprint seen.stderr
  return seen.exitCode.toUInt32

end ArithLex

def main (args : List String) : IO UInt32 :=
  ArithLex.listTokens args
