/-!
# Bytes of the source text

The lexer reads raw bytes. This file sorts them into blanks and digits, and gives the printable
form in which a message quotes a single byte.
-/

namespace ArithLex

/-- A byte of source text. -/
abbrev Byte := UInt8

/-- The bytes that encode a text in UTF-8. -/
def utf8 (text : String) : List Byte :=
  text.toList.flatMap String.utf8EncodeChar

@[simp] theorem utf8_append (s t : String) : utf8 (s ++ t) = utf8 s ++ utf8 t := by
  simp [utf8]

namespace Byte

/-! ## Classes -/

/-- The line feed, the only byte that ends a line. -/
def newline : Byte := 0x0a

/-- Blanks separate tokens: tab, line feed, vertical tab, form feed, carriage return and space. -/
def isBlank (b : Byte) : Bool :=
  b == 0x20 || (0x09 ≤ b && b ≤ 0x0d)

/-- The digits are `0` to `9`. -/
def isDigit (b : Byte) : Bool :=
  0x30 ≤ b && b ≤ 0x39

/-- The number that a digit stands for. -/
def digitValue (b : Byte) : Nat :=
  b.toNat - 0x30

theorem isDigit_eq_false_of_isBlank {b : Byte} (h : b.isBlank = true) : b.isDigit = false := by
  simp only [isBlank, isDigit, Bool.or_eq_true, Bool.and_eq_true, beq_iff_eq, decide_eq_true_eq,
    Bool.and_eq_false_iff, decide_eq_false_iff_not, UInt8.le_iff_toNat_le, ← UInt8.toNat_inj,
    UInt8.reduceToNat] at *
  omega

theorem isBlank_eq_false_of_isDigit {b : Byte} (h : b.isDigit = true) : b.isBlank = false := by
  cases hb : b.isBlank with
  | false => rfl
  | true =>
    rw [isDigit_eq_false_of_isBlank hb] at h
    contradiction

theorem ne_newline_of_not_isBlank {b : Byte} (h : b.isBlank = false) : b ≠ newline := by
  rintro rfl
  exact absurd h (by decide)

theorem ne_newline_of_isDigit {b : Byte} (h : b.isDigit = true) : b ≠ newline := by
  rintro rfl
  exact absurd h (by decide)

/-- The byte behind a run of bytes of one class is not of this class. -/
theorem eq_false_of_dropWhile {p : Byte → Bool} {s behind : List Byte} {b : Byte}
    (h : s.dropWhile p = b :: behind) : p b = false := by
  have hhead := List.head?_dropWhile_not p s
  rw [h] at hhead
  simpa using hhead

/-! ## Quoting -/

/-- The lower-case hexadecimal digit for a number below sixteen. -/
def hexDigit (n : Nat) : Char :=
  Char.ofNat (if n < 10 then 0x30 + n else 0x57 + n)

/-- How a message shows a byte. Printable ASCII stands for itself, except that quotes and the
backslash take a backslash; tab, line feed and carriage return have a letter of their own; every
other byte is `\x` and two hexadecimal digits. -/
def escaped (b : Byte) : List Char :=
  if b == 0x09 then ['\\', 't']
  else if b == 0x0a then ['\\', 'n']
  else if b == 0x0d then ['\\', 'r']
  else if b == 0x22 || b == 0x27 || b == 0x5c then ['\\', Char.ofNat b.toNat]
  else if 0x20 ≤ b && b ≤ 0x7e then [Char.ofNat b.toNat]
  else ['\\', 'x', hexDigit (b.toNat / 16), hexDigit (b.toNat % 16)]

end Byte

end ArithLex
