import ArithLex.Token

/-!
# The grammar of source texts

A source text writes tokens one after the other, with gaps of blanks before, between and behind
them. An operator is written by its byte; a literal by any digits whose number is congruent to its
value modulo 2^64. Only where a digit would follow a literal is a gap needed to end the literal.
`Renders ts s` says which texts mean which tokens.

Nothing here speaks of scanning. The grammar has its classes of bytes as lists, and the tests by
which the lexer sorts bytes are proved to agree with them (`Byte.isLegal_eq`).
-/

namespace ArithLex

/-! ## Legal bytes -/

namespace Byte

/-- The blanks: space, tab, line feed, vertical tab, form feed and carriage return. -/
def blanks : List Byte :=
  [0x20, 0x09, 0x0a, 0x0b, 0x0c, 0x0d]

/-- The operators: plus, minus, star and slash. -/
def operators : List Byte :=
  [0x2b, 0x2d, 0x2a, 0x2f]

/-- The digits from zero to nine. -/
def digits : List Byte :=
  [0x30, 0x31, 0x32, 0x33, 0x34, 0x35, 0x36, 0x37, 0x38, 0x39]

/-- The bytes that have a place in a source text: blanks, operators and digits. -/
def isLegal (b : Byte) : Bool :=
  blanks.contains b || operators.contains b || digits.contains b

theorem mem_blanks_iff {b : Byte} : b ∈ blanks ↔ b.isBlank = true := by
  simp only [blanks, isBlank, List.mem_cons, List.not_mem_nil, or_false, Bool.or_eq_true,
    Bool.and_eq_true, beq_iff_eq, decide_eq_true_eq, UInt8.le_iff_toNat_le, ← UInt8.toNat_inj,
    UInt8.reduceToNat]
  omega

theorem mem_operators_iff {b : Byte} : b ∈ operators ↔ (Operator.ofByte? b).isSome = true := by
  rw [Option.isSome_iff_exists]
  constructor
  · intro h
    simp only [operators, List.mem_cons, List.not_mem_nil, or_false] at h
    rcases h with rfl | rfl | rfl | rfl <;> exact ⟨_, rfl⟩
  · rintro ⟨o, ho⟩
    rw [← Operator.ofByte?_eq_some_iff.1 ho]
    cases o <;> decide

theorem mem_digits_iff {b : Byte} : b ∈ digits ↔ b.isDigit = true := by
  simp only [digits, isDigit, List.mem_cons, List.not_mem_nil, or_false, Bool.and_eq_true,
    decide_eq_true_eq, UInt8.le_iff_toNat_le, ← UInt8.toNat_inj, UInt8.reduceToNat]
  omega

/-- The tests of the lexer let the legal bytes pass and no others. -/
theorem isLegal_eq (b : Byte) :
    b.isLegal = (b.isBlank || (Operator.ofByte? b).isSome || b.isDigit) := by
  rw [Bool.eq_iff_iff]
  simp only [isLegal, Bool.or_eq_true, List.contains_iff_mem, mem_blanks_iff, mem_operators_iff,
    mem_digits_iff]

end Byte

theorem Byte.isLegal_of_isBlank {b : Byte} (h : b.isBlank = true) : b.isLegal = true := by
  simp [isLegal_eq, h]

theorem Byte.isLegal_of_isDigit {b : Byte} (h : b.isDigit = true) : b.isLegal = true := by
  simp [isLegal_eq, h]

theorem Byte.ne_newline_of_not_isLegal {b : Byte} (h : b.isLegal = false) : b ≠ newline := by
  intro hb
  rw [hb] at h
  exact absurd h (by decide)

theorem Byte.isLegal_eq_false_of_dropWhile {s : List Byte} {b : Byte} {behind : List Byte}
    (h : s.dropWhile isLegal = b :: behind) : b.isLegal = false :=
  eq_false_of_dropWhile h

theorem Operator.isLegal_byte (o : Operator) : o.byte.isLegal = true := by
  simp [Byte.isLegal_eq]

/-! ## Written forms -/

/-- Whether a text ends in a digit, so that digits behind it would run into its last literal. -/
def endsInDigit (s : List Byte) : Bool :=
  s.getLast?.any Byte.isDigit

/-- A gap is a string of blanks, which may be empty. -/
def IsGap (gap : List Byte) : Prop :=
  ∀ b ∈ gap, b ∈ Byte.blanks

theorem isGap_iff {gap : List Byte} : IsGap gap ↔ ∀ b ∈ gap, b.isBlank = true := by
  simp only [IsGap, Byte.mem_blanks_iff]

theorem IsGap.isBlank {gap : List Byte} (h : IsGap gap) {b : Byte} (hb : b ∈ gap) :
    b.isBlank = true :=
  isGap_iff.1 h b hb

/-- The strings that write a token. Leading zeros and numbers of any size are allowed. -/
def Token.WrittenAs : Token → List Byte → Prop
  | .op o, s => s = [o.byte]
  | .lit v, s =>
    s ≠ [] ∧ (∀ d ∈ s, d ∈ Byte.digits) ∧
      (Numeral.toNat s : Int) % Int64.size = v.toInt % Int64.size

/-- The texts that write a list of tokens. -/
inductive Renders : List Token → List Byte → Prop where
  | nil {gap : List Byte} (hgap : IsGap gap) : Renders [] gap
  | cons {gap written rest : List Byte} {t : Token} {ts : List Token} (hgap : IsGap gap)
      (ht : t.WrittenAs written) (hrest : Renders ts rest)
      (hend : t.value?.isSome → ∀ b, rest.head? = some b → b.isDigit = false) :
      Renders (t :: ts) (gap ++ written ++ rest)

theorem Token.writtenAs_lit_iff {v : Int64} {s : List Byte} :
    (Token.lit v).WrittenAs s ↔
      s ≠ [] ∧ (∀ d ∈ s, d.isDigit = true) ∧ Numeral.wrapped s = v := by
  rw [Numeral.wrapped_eq_iff]
  simp only [WrittenAs, Byte.mem_digits_iff]

theorem Token.WrittenAs.isDigit {v : Int64} {s : List Byte} (h : (Token.lit v).WrittenAs s)
    {d : Byte} (hd : d ∈ s) : d.isDigit = true :=
  (Token.writtenAs_lit_iff.1 h).2.1 d hd

theorem Token.WrittenAs.ne_nil {t : Token} {s : List Byte} (h : t.WrittenAs s) : s ≠ [] := by
  cases t with
  | op o => simp [show s = [o.byte] from h]
  | lit v => exact h.1

theorem Token.WrittenAs.isLegal {t : Token} {s : List Byte} (h : t.WrittenAs s) :
    ∀ b ∈ s, b.isLegal = true := by
  intro b hb
  cases t with
  | op o =>
    rw [show s = [o.byte] from h, List.mem_singleton] at hb
    rw [hb]
    exact o.isLegal_byte
  | lit v => exact Byte.isLegal_of_isDigit (h.isDigit hb)

/-- No token is written with a line feed. -/
theorem Token.WrittenAs.count_newline {t : Token} {s : List Byte} (h : t.WrittenAs s) :
    s.count Byte.newline = 0 := by
  rw [List.count_eq_zero]
  intro hmem
  cases t with
  | op o =>
    rw [show s = [o.byte] from h, List.mem_singleton] at hmem
    exact Byte.ne_newline_of_not_isBlank o.isBlank_byte hmem.symm
  | lit v => exact Byte.ne_newline_of_isDigit (h.isDigit hmem) rfl

theorem ne_nil_of_endsInDigit {s : List Byte} (h : endsInDigit s = true) : s ≠ [] := by
  intro hs
  rw [hs] at h
  contradiction

/-- Only the end of a text matters for its last byte. -/
theorem endsInDigit_append (front : List Byte) {s : List Byte} (h : s ≠ []) :
    endsInDigit (front ++ s) = endsInDigit s := by
  have hlast : s.getLast? = some (s.getLast h) := List.getLast?_eq_some_getLast h
  simp [endsInDigit, List.getLast?_append, hlast]

/-- A token is written with a digit at its end exactly if it is a literal. -/
theorem Token.WrittenAs.endsInDigit_eq {t : Token} {s : List Byte} (h : t.WrittenAs s) :
    endsInDigit s = t.value?.isSome := by
  cases t with
  | op o => simp [show s = [o.byte] from h, endsInDigit, value?]
  | lit v =>
    have hlast : s.getLast? = some (s.getLast h.1) := List.getLast?_eq_some_getLast h.1
    simp [endsInDigit, hlast, h.isDigit (List.getLast_mem h.1), value?]

/-- A text that writes tokens holds legal bytes only. -/
theorem Renders.isLegal {ts : List Token} {s : List Byte} (h : Renders ts s) :
    ∀ b ∈ s, b.isLegal = true := by
  induction h with
  | nil hgap => exact fun b hb => Byte.isLegal_of_isBlank (hgap.isBlank hb)
  | cons hgap ht _ _ ih =>
    intro b hb
    simp only [List.mem_append] at hb
    rcases hb with (hb | hb) | hb
    · exact Byte.isLegal_of_isBlank (hgap.isBlank hb)
    · exact ht.isLegal b hb
    · exact ih b hb

end ArithLex
