import ArithLex.Fault
import ArithLex.Script

/-!
# Cursors

A cursor is a place in an input script from which bytes are read one at a time. A byte can be
handed back to it; that byte is pending, and the next read delivers it before anything else. The
cursor counts the line feeds that reads take from the script. A pending byte is never counted:
either it was counted when the script delivered it, or the script never held it.

Where a text begins, a line feed is pending, so that every text starts as a line does.

Four things live here:

* the moves, of which `read` is the only one that takes events from the script: it passes over
  empty chunks and tries interrupted reads again;
* `lineBehind`, the line behind some bytes, which is counted in 32 bits;
* `read_unchunked`, which says that reads depend on the script through its signals only;
* `size`, the measure by which every loop over a cursor ends.
-/

namespace ArithLex

/-- A place in an input: the byte handed back, the current line, and the events still to come. -/
structure Cursor where
  /-- The name of the input, for messages. -/
  name : String
  /-- The byte that the next read delivers before all others. -/
  pending : Option Byte
  /-- One more than the number of line feeds delivered since the text began, in 32 bits. -/
  line : UInt32
  /-- The events not yet met. Where they run out, every read meets the end of input. -/
  rest : Script
deriving DecidableEq, Repr

namespace Cursor

/-! ## Lines -/

/-- The line after a byte has been delivered by the script. -/
def lineAfter (line : UInt32) (b : Byte) : UInt32 :=
  if b == Byte.newline then line + 1 else line

/-- The line behind some bytes that start on a given line. -/
def lineBehind (line : UInt32) (bytes : List Byte) : UInt32 :=
  line + UInt32.ofNat (bytes.count Byte.newline)

@[simp] theorem lineBehind_nil (line : UInt32) : lineBehind line [] = line :=
  UInt32.add_zero line

theorem lineBehind_append (line : UInt32) (s t : List Byte) :
    lineBehind line (s ++ t) = lineBehind (lineBehind line s) t := by
  simp only [lineBehind, List.count_append, UInt32.ofNat_add, UInt32.add_assoc]

theorem lineBehind_singleton (line : UInt32) (b : Byte) :
    lineBehind line [b] = lineAfter line b := by
  by_cases h : b = Byte.newline <;> simp [lineBehind, lineAfter, h]

theorem lineBehind_cons (line : UInt32) (b : Byte) (s : List Byte) :
    lineBehind line (b :: s) = lineBehind (lineAfter line b) s := by
  rw [← lineBehind_singleton, ← lineBehind_append, List.singleton_append]

theorem lineAfter_of_ne {b : Byte} (h : b ≠ Byte.newline) (line : UInt32) :
    lineAfter line b = line := by
  simp [lineAfter, h]

/-- Bytes without a line feed do not move the line. -/
theorem lineBehind_of_count_eq_zero {s : List Byte} (h : s.count Byte.newline = 0)
    (line : UInt32) : lineBehind line s = line := by
  rw [lineBehind, h]
  exact UInt32.add_zero line

/-- Further down, all lines are higher by as much. -/
theorem lineBehind_add (line k : UInt32) (s : List Byte) :
    lineBehind (line + k) s = lineBehind line s + k := by
  rw [lineBehind, lineBehind, UInt32.add_assoc, UInt32.add_comm k, ← UInt32.add_assoc]

theorem lineBehind_add_left (k line : UInt32) (s : List Byte) :
    lineBehind (k + line) s = k + lineBehind line s :=
  UInt32.add_assoc ..

/-- The line is counted modulo 2^32. -/
theorem toNat_lineBehind (line : UInt32) (s : List Byte) :
    (lineBehind line s).toNat = (line.toNat + s.count Byte.newline) % UInt32.size := by
  rw [lineBehind, UInt32.toNat_add, UInt32.toNat_ofNat', Nat.add_mod_mod]

/-- Behind fewer than 2^32 - 1 line feeds the line is exact. -/
theorem toNat_lineBehind_one {s : List Byte} (h : s.count Byte.newline < UInt32.size - 1) :
    (lineBehind 1 s).toNat = 1 + s.count Byte.newline := by
  have hone : (1 : UInt32).toNat = 1 := rfl
  rw [toNat_lineBehind, hone, Nat.mod_eq_of_lt (by omega)]

/-! ## Moving -/

/-- Begins a new text at this place of the input: lines count from one again, and a line feed is
pending. -/
def beginText (c : Cursor) : Cursor :=
  { c with pending := some Byte.newline, line := 1 }

/-- The cursor at the start of a script. -/
def ofScript (name : String) (script : Script) : Cursor where
  name := name
  pending := some Byte.newline
  line := 1
  rest := script

/-- Hands a byte back. It takes the place of a byte that is already pending. -/
def unread (c : Cursor) (b : Byte) : Cursor :=
  { c with pending := some b }

/-- Where the cursor stands. -/
def position (c : Cursor) : Position :=
  { line := c.line, name := c.name }

/-- Reads one byte from the events of a script. A chunk without bytes is passed over, and so is an
interrupted read, which is tried again. An end of input and any other failure are used up by the
read that meets them, and the next read goes on behind them. -/
def readEvents (name : String) (line : UInt32) : Script → Pull Byte × Cursor
  | [] => (.ended, ⟨name, none, line, []⟩)
  | .data [] :: rest => readEvents name line rest
  | .data (b :: bytes) :: rest =>
    (.item b, ⟨name, none, lineAfter line b, Script.consChunk bytes rest⟩)
  | .finish :: rest => (.ended, ⟨name, none, line, rest⟩)
  | .failure e :: rest =>
    if e.isRetried then readEvents name line rest
    else (.fault (.cannotRead name e), ⟨name, none, line, rest⟩)

/-- Reads one byte: the pending one, if there is one, or else from the script. -/
def read (c : Cursor) : Pull Byte × Cursor :=
  match c.pending with
  | some b => (.item b, { c with pending := none })
  | none => readEvents c.name c.line c.rest

/-! ## What reads meet

A script is read as if each of its signals were an event of its own. -/

/-- The cursor whose events have been taken apart into single signals. -/
def unchunked (c : Cursor) : Cursor :=
  { c with rest := Script.unchunked c.rest.signals }

/-- The cursor that has no byte pending and the given signals to come, each by itself. -/
abbrev facing (name : String) (line : UInt32) (rest : List Signal) : Cursor :=
  { name, pending := none, line, rest := Script.unchunked rest }

@[simp] theorem read_pending (name : String) (b : Byte) (line : UInt32) (rest : Script) :
    read ⟨name, some b, line, rest⟩ = (.item b, ⟨name, none, line, rest⟩) := rfl

@[simp] theorem read_nil (name : String) (line : UInt32) :
    (facing name line []).read = (.ended, facing name line []) := rfl

@[simp] theorem read_byte (name : String) (line : UInt32) (b : Byte) (rest : List Signal) :
    (facing name line (.byte b :: rest)).read =
      (.item b, facing name (lineAfter line b) rest) := rfl

@[simp] theorem read_finish (name : String) (line : UInt32) (rest : List Signal) :
    (facing name line (.finish :: rest)).read = (.ended, facing name line rest) := rfl

@[simp] theorem read_failure (name : String) (line : UInt32) (e : IoFailure)
    (h : e.isRetried = false) (rest : List Signal) :
    (facing name line (.failure e h :: rest)).read =
      (.fault (.cannotRead name e), facing name line rest) :=
  if_neg (Bool.eq_false_iff.1 h)

/-- The loop of a read takes the first of the signals, whatever the events look like that give
it. -/
theorem readEvents_unchunked (name : String) (line : UInt32) (script : Script) :
    readEvents name line (Script.unchunked script.signals) =
      ((readEvents name line script).1, (readEvents name line script).2.unchunked) := by
  induction script with
  | nil => rfl
  | cons e script ih =>
    rcases e with (_ | ⟨b, bytes⟩) | _ | e
    · exact ih
    · have hread := read_byte name line b (bytes.map .byte ++ Script.signals script)
      simpa [read, readEvents, unchunked] using hread
    · rfl
    · cases he : e.isRetried with
      | true =>
        rw [Script.signals_cons, Event.signals_failure_of_isRetried he, List.nil_append, ih]
        simp [readEvents, he]
      | false =>
        have hread := read_failure name line e he (Script.signals script)
        rw [Script.signals_cons, Event.signals_failure he]
        simpa [read, readEvents, unchunked, he] using hread

/-- Reads do not tell scripts with the same signals apart. -/
theorem read_unchunked (c : Cursor) : c.unchunked.read = (c.read.1, c.read.2.unchunked) := by
  obtain ⟨name, pending, line, rest⟩ := c
  cases pending with
  | some b => rfl
  | none => exact readEvents_unchunked name line rest

/-! ## Size

What is left for reads to use up: the pending byte and the signals to come. Loops over a cursor end
because their steps make it smaller. -/

/-- The number of reads after which only ends of input can follow. -/
def size (c : Cursor) : Nat :=
  c.pending.toList.length + c.rest.signals.length

@[simp] theorem size_unchunked (c : Cursor) : c.unchunked.size = c.size := by
  simp [size, unchunked]

theorem size_unread_le (c : Cursor) (b : Byte) : (c.unread b).size ≤ c.size + 1 := by
  simp [size, unread]
  omega

/-- A read that delivers a byte uses it up, one that fails uses the failure up, and one that meets
the end of input uses that up unless the script has ended. -/
theorem size_read (c : Cursor) :
    c.read.2.size + 1 = c.size ∨ c.read.1 = .ended ∧ c.read.2.size = c.size := by
  have hresult : c.unchunked.read.1 = c.read.1 := by rw [c.read_unchunked]
  have hleft : c.unchunked.read.2 = c.read.2.unchunked := by rw [c.read_unchunked]
  rw [← c.size_unchunked, ← c.read.2.size_unchunked, ← hresult, ← hleft]
  obtain ⟨name, pending, line, rest⟩ := c
  rcases pending with _ | b
  · -- by the next signal
    rw [unchunked]
    match rest.signals with
    | [] => exact .inr ⟨rfl, rfl⟩
    | .byte b :: rest => exact .inl (by simp [size])
    | .finish :: rest => exact .inl (by simp [size])
    | .failure e h :: rest => exact .inl (by simp [size])
  · exact .inl (by simp [size, unchunked, Nat.add_comm])

theorem size_read_le (c : Cursor) : c.read.2.size ≤ c.size := by
  rcases c.size_read with h | ⟨-, h⟩ <;> omega

/-- A read that delivers a byte uses it up. -/
theorem size_read_of_item {c : Cursor} {b : Byte} (h : c.read.1 = .item b) :
    c.read.2.size + 1 = c.size := by
  rcases c.size_read with hsize | ⟨hended, -⟩
  · exact hsize
  · rw [hended] at h
    contradiction

/-- Only a read that meets an end of input may leave the cursor as large as it was. -/
theorem size_read_lt {c : Cursor} (h : c.read.1 ≠ .ended) : c.read.2.size < c.size := by
  rcases c.size_read with hsize | ⟨hended, -⟩
  · omega
  · contradiction

/-- Induction along the reads that deliver bytes: what holds of a cursor if it holds behind the byte
that is read there holds of every cursor. -/
@[elab_as_elim]
theorem read_induction {motive : Cursor → Prop}
    (step : ∀ c, (∀ b c', c.read = (.item b, c') → motive c') → motive c) (c : Cursor) :
    motive c := by
  induction hn : c.size using Nat.strongRecOn generalizing c with
  | ind n ih =>
    refine step c fun b c' h => ?_
    have hitem := size_read_of_item (congrArg Prod.fst h)
    rw [h] at hitem
    exact ih _ (by simp only at hitem; omega) c' rfl

theorem pending_readEvents (name : String) (line : UInt32) (script : Script) :
    (readEvents name line script).2.pending = none := by
  induction script with
  | nil => rfl
  | cons e script ih =>
    rcases e with (_ | ⟨b, bytes⟩) | _ | e
    · exact ih
    · rfl
    · rfl
    · cases he : e.isRetried <;> simp [readEvents, he, ih]

theorem pending_read (c : Cursor) : c.read.2.pending = none := by
  unfold read
  split
  · rfl
  · exact pending_readEvents ..

-- Between two digits lie a chunk border, an empty chunk and an interrupted read.
example : (ofScript "input" [.data [0x31], .data [], .failure ⟨.interrupted, ""⟩,
      .data [0x32, 0x2b]]).read.2.read.2.read =
    (.item 0x32, ⟨"input", none, 1, [.data [0x2b]]⟩) := by
  decide

end Cursor

end ArithLex
