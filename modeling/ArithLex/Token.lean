import ArithLex.Numeral

/-!
# Tokens

The lexer knows the four arithmetic operators and integer literals. This file holds the two types,
the table of operator bytes, and the text in which a token is listed.
-/

namespace ArithLex

/-! ## Operators -/

/-- An arithmetic operator. -/
inductive Operator where
  | plus
  | minus
  | star
  | slash
deriving DecidableEq, Repr

namespace Operator

/-- The byte that writes an operator. -/
def byte : Operator → Byte
  | plus => 0x2b
  | minus => 0x2d
  | star => 0x2a
  | slash => 0x2f

/-- The operator that a byte writes, if it writes one. -/
def ofByte? (b : Byte) : Option Operator :=
  if b == 0x2b then some plus
  else if b == 0x2d then some minus
  else if b == 0x2a then some star
  else if b == 0x2f then some slash
  else none

@[simp] theorem ofByte?_byte (o : Operator) : ofByte? o.byte = some o := by
  cases o <;> rfl

theorem ofByte?_eq_some_iff {b : Byte} {o : Operator} : ofByte? b = some o ↔ o.byte = b := by
  constructor
  · intro h
    unfold ofByte? at h
    -- each branch of the table names its operator, and the test that led there names the byte
    repeat' split at h
    all_goals simp_all [byte]
    all_goals subst h; rfl
  · intro h
    rw [← h, ofByte?_byte]

@[simp] theorem isBlank_byte (o : Operator) : o.byte.isBlank = false := by
  cases o <;> rfl

@[simp] theorem isDigit_byte (o : Operator) : o.byte.isDigit = false := by
  cases o <;> rfl

theorem ofByte?_of_isDigit {b : Byte} (h : b.isDigit = true) : ofByte? b = none := by
  rw [Option.eq_none_iff_forall_ne_some]
  intro o ho
  rw [← ofByte?_eq_some_iff.1 ho, isDigit_byte] at h
  contradiction

/-- The name under which an operator is listed. -/
def name : Operator → String
  | plus => "Plus"
  | minus => "Minus"
  | star => "Star"
  | slash => "Slash"

end Operator

/-! ## Tokens -/

/-- A single lexical unit: an operator, or a literal with its 64-bit value. -/
inductive Token where
  | op (o : Operator)
  | lit (value : Int64)
deriving DecidableEq, Repr

namespace Token

/-- The name of the lexical class of a token. -/
def className : Token → String
  | op o => o.name
  | lit _ => "IntLit"

/-- The value of a literal; operators have none. -/
def value? : Token → Option Int64
  | op _ => none
  | lit v => some v

/-- The text that describes a token. -/
def text (t : Token) : String :=
  match t with
  | op _ => "Token " ++ t.className
  | lit v => "Token " ++ t.className ++ ", value " ++ toString v.toInt

/-- A token as a line of a listing. -/
def line (t : Token) : String :=
  t.text ++ "\n"

end Token

end ArithLex
