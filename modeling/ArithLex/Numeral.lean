import ArithLex.Byte

/-!
# Numerals

A literal may have any number of digits. Its exact value is a natural number (`Numeral.toNat`); the
value a token carries is that number modulo 2^64, read as signed (`Numeral.wrapped`), and it is
computed in 64-bit arithmetic one digit at a time. `wrapped_eq` says that the two agree, and
`wrapped_eq_iff` that the value is the one congruent to the number.
-/

namespace ArithLex.Numeral

/-- The number that a string of digits writes in base ten. -/
def toNat (digits : List Byte) : Nat :=
  digits.foldl (fun n d => n * 10 + d.digitValue) 0

/-- The value of a literal that goes on with one more digit, in 64 signed bits. -/
def push (v : Int64) (d : Byte) : Int64 :=
  v * 10 + Int64.ofNat d.digitValue

/-- The value of a literal: what remains of its number in 64 signed bits. -/
def wrapped (digits : List Byte) : Int64 :=
  digits.foldl push 0

/-- The first digit is the value that the other digits are pushed on. -/
theorem wrapped_cons (d : Byte) (digits : List Byte) :
    wrapped (d :: digits) = digits.foldl push (Int64.ofNat d.digitValue) := by
  have hfirst : push 0 d = Int64.ofNat d.digitValue := by simp [push]
  rw [wrapped, List.foldl_cons, hfirst]

/-- Wrapping after every digit is the same as wrapping the whole number once. -/
theorem wrapped_eq (digits : List Byte) : wrapped digits = Int64.ofNat (toNat digits) := by
  suffices h : ∀ n : Nat,
      digits.foldl push (Int64.ofNat n) =
        Int64.ofNat (digits.foldl (fun n d => n * 10 + d.digitValue) n) from h 0
  induction digits with
  | nil => intro n; rfl
  | cons d ds ih =>
    intro n
    -- one step on the left is one step on the right, since `Int64.ofNat` respects both operations
    have hstep : push (Int64.ofNat n) d = Int64.ofNat (n * 10 + d.digitValue) := by
      rw [Int64.ofNat_add, Int64.ofNat_mul]
      rfl
    simp only [List.foldl_cons, hstep]
    exact ih _

/-- The value of a literal is the one that is congruent to its number modulo 2^64. -/
theorem wrapped_eq_iff {digits : List Byte} {v : Int64} :
    wrapped digits = v ↔ (toNat digits : Int) % Int64.size = v.toInt % Int64.size := by
  have hlow := v.le_toInt
  have hhigh := v.toInt_lt
  rw [wrapped_eq, ← Int64.toInt_inj, Int64.toInt_ofNat', Int.bmod_eq_iff (by decide)]
  simp only [Int64.size]
  omega

/-- A literal whose number is below 2^63 has exactly that value. -/
theorem toInt_wrapped_of_le {digits : List Byte}
    (h : (toNat digits : Int) ≤ Int64.maxValue.toInt) : (wrapped digits).toInt = toNat digits := by
  have hmax : Int64.maxValue.toInt = 9223372036854775807 := rfl
  rw [wrapped_eq, Int64.toInt_ofNat_of_lt (by omega)]

end ArithLex.Numeral
