import ArithLex.Proofs.View

/-!
# Moving a text down

A cursor uses its line only to count on from it and to place faults. Where the text stands `k` lines
further down (`Cursor.down`), reads give the same with all lines `k` higher (`read_down`). This
makes a view of it (`downView`), so that all that is made of reads follows, such as collecting
tokens (`tokens_down`).
-/

namespace ArithLex

/-- The fault of a text that stands `k` lines further down. Only faults with a position change. -/
def Fault.down (k : UInt32) : Fault → Fault
  | illegalByte b place => illegalByte b { place with line := place.line + k }
  | cannotOpen path cause => cannotOpen path cause
  | cannotRead name cause => cannotRead name cause
  | cannotWrite cause => cannotWrite cause

/-- The result of a scan `k` lines further down. -/
def Pull.down {α : Type} (k : UInt32) : Pull α → Pull α
  | item a => item a
  | ended => ended
  | fault f => fault (f.down k)

theorem Pull.down_eq {α : Type} (k : UInt32) (r : Pull α) :
    r.down k = r.mapFault (Fault.down k) := by
  cases r <;> rfl

namespace Cursor

/-- The same place of the input, counted `k` lines further down. -/
def down (k : UInt32) (c : Cursor) : Cursor :=
  { c with line := c.line + k }

/-! ## Single reads -/

theorem lineAfter_add (line k : UInt32) (b : Byte) :
    lineAfter (line + k) b = lineAfter line b + k := by
  rw [← lineBehind_singleton, ← lineBehind_singleton, lineBehind_add]

theorem readEvents_down (name : String) (line k : UInt32) (script : Script) :
    readEvents name (line + k) script =
      ((readEvents name line script).1.down k, (readEvents name line script).2.down k) := by
  induction script with
  | nil => rfl
  | cons e script ih =>
    rcases e with (_ | ⟨b, bytes⟩) | _ | e
    · exact ih
    · simp [readEvents, lineAfter_add, Pull.down, down]
    · rfl
    · cases he : e.isRetried with
      | true => simp [readEvents, he, ih]
      | false => simp [readEvents, he, Pull.down, down, Fault.down]

theorem read_down (k : UInt32) (c : Cursor) :
    (c.down k).read = (c.read.1.down k, c.read.2.down k) := by
  obtain ⟨name, pending, line, rest⟩ := c
  cases pending with
  | some b => rfl
  | none => exact readEvents_down name line k rest

/-- Further down, a cursor is seen with a higher line. -/
def downView (k : UInt32) : View where
  see := down k
  rename := Fault.down k
  read c := by rw [read_down, Pull.down_eq]
  unread _ _ := rfl
  illegalByte _ _ := rfl

/-! ## Collecting tokens -/

/-- All tokens of a text are the same `k` lines further down. -/
theorem tokens_down (k : UInt32) (c : Cursor) :
    (c.down k).tokens = (c.tokens.1.mapError (Fault.down k), c.tokens.2.down k) :=
  (downView k).tokens c

end Cursor

end ArithLex
