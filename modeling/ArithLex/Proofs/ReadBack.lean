import ArithLex.Proofs.Concatenation

/-!
# Printed values read back

A listing shows values in decimal, with a minus sign where they are negative. As source text, such
a number has the value that was printed, and the sign is a token of its own
(`Token.renders_source_append`). So tokens that are written out with blanks between them are read
back as they were, apart from negative literals (`renders_joined`).

The main result is `textTokens_joined`.
-/

namespace ArithLex

/-! ## Numbers in decimal -/

theorem utf8EncodeChar_of_isDigit {c : Char} (h : c.isDigit = true) :
    String.utf8EncodeChar c = [c.toUInt8] := by
  have hval : c.val ≤ 127 := by
    obtain ⟨-, hnine⟩ := Char.isDigit_iff_toNat.1 h
    rw [UInt32.le_iff_toNat_le, Char.toNat_val]
    exact hnine.trans (by decide)
  exact String.utf8EncodeChar_eq_singleton (Char.utf8Size_eq_one_iff.2 hval)

/-- A digit is encoded as its code point. -/
theorem toNat_toUInt8_of_isDigit {c : Char} (h : c.isDigit = true) :
    c.toUInt8.toNat = c.toNat := by
  obtain ⟨-, hnine⟩ := Char.isDigit_iff_toNat.1 h
  change c.val.toUInt8.toNat = c.toNat
  rw [UInt32.toNat_toUInt8, Char.toNat_val]
  exact Nat.mod_eq_of_lt (Nat.lt_of_le_of_lt hnine (by decide))

theorem isDigit_toUInt8 {c : Char} (h : c.isDigit = true) : Byte.isDigit c.toUInt8 = true := by
  have hnat := toNat_toUInt8_of_isDigit h
  have hdigit := Char.isDigit_iff_toNat.1 h
  simp only [Byte.isDigit, Bool.and_eq_true, decide_eq_true_eq, UInt8.le_iff_toNat_le, hnat]
  exact hdigit

theorem isDigit_of_mem_toDigits {n : Nat} {c : Char} (h : c ∈ Nat.toDigits 10 n) :
    c.isDigit = true :=
  Nat.isDigit_of_mem_toDigits (by decide) (by decide) h

/-- A number in decimal is one byte a digit. -/
theorem utf8_repr (n : Nat) : utf8 n.repr = (Nat.toDigits 10 n).map Char.toUInt8 := by
  rw [utf8, Nat.toList_repr, List.map_eq_flatMap]
  exact List.flatMap_congr fun c hc => utf8EncodeChar_of_isDigit (isDigit_of_mem_toDigits hc)

theorem isDigit_of_mem_utf8_repr {n : Nat} {b : Byte} (h : b ∈ utf8 n.repr) :
    b.isDigit = true := by
  rw [utf8_repr] at h
  obtain ⟨c, hc, rfl⟩ := List.mem_map.1 h
  exact isDigit_toUInt8 (isDigit_of_mem_toDigits hc)

theorem utf8_repr_ne_nil (n : Nat) : utf8 n.repr ≠ [] := by
  rw [utf8_repr]
  exact mt List.map_eq_nil_iff.1 Nat.toDigits_ne_nil

/-- The number that is read is the one that was printed. -/
theorem Numeral.toNat_utf8_repr (n : Nat) : toNat (utf8 n.repr) = n := by
  rw [utf8_repr, toNat, List.foldl_map]
  calc _ = Nat.ofDigitChars 10 (Nat.toDigits 10 n) 0 := by
        rw [Nat.ofDigitChars_eq_foldl]
        apply List.foldl_ext
        intro m c hc
        rw [Byte.digitValue, toNat_toUInt8_of_isDigit (isDigit_of_mem_toDigits hc), Nat.mul_comm]
        rfl
    _ = n := Nat.ofDigitChars_ten_toDigits

/-- A number in decimal writes the literal that has its value in 64 bits. -/
theorem Token.writtenAs_utf8_repr (n : Nat) : (lit (Int64.ofNat n)).WrittenAs (utf8 n.repr) := by
  have hwritten := writtenAs_wrapped (utf8_repr_ne_nil n) fun _ => isDigit_of_mem_utf8_repr
  rwa [Numeral.wrapped_eq, Numeral.toNat_utf8_repr] at hwritten

/-! ## Negation in 64 bits -/

theorem neg_iff_toInt_neg (v : Int64) : v < 0 ↔ v.toInt < 0 := by
  rw [Int64.lt_iff_toInt_lt, Int64.toInt_zero]

theorem ofNat_toInt {v : Int64} (h : ¬v < 0) : Int64.ofNat v.toInt.toNat = v := by
  have hnonneg : 0 ≤ v.toInt := Int.not_lt.1 (mt (neg_iff_toInt_neg v).2 h)
  rw [← Int64.ofInt_eq_ofNat, Int.toNat_of_nonneg hnonneg, Int64.ofInt_toInt]

theorem ofNat_neg_toInt {v : Int64} (h : v < 0) : Int64.ofNat (-v.toInt).toNat = 0 - v := by
  have hneg : v.toInt < 0 := (neg_iff_toInt_neg v).1 h
  rw [← Int64.ofInt_eq_ofNat, Int.toNat_of_nonneg (by omega), Int64.ofInt_neg, Int64.ofInt_toInt,
    Int64.zero_sub]

/-- Only the least value has a negation that does not fit. -/
theorem toInt_zero_sub {v : Int64} (h : v ≠ Int64.minValue) : (0 - v).toInt = -v.toInt := by
  have hlow := v.le_toInt
  have hhigh := v.toInt_lt
  have hne : v.toInt ≠ -2 ^ 63 := by
    rw [← Int64.toInt_minValue]
    exact mt Int64.toInt_inj.1 h
  rw [Int64.zero_sub, Int64.toInt_neg]
  apply Int.bmod_eq_of_le <;> omega

/-! ## Single tokens -/

namespace Token

/-- A token as source text: an operator as its byte, and a literal as a listing shows its value. -/
def source : Token → List Byte
  | op o => [o.byte]
  | lit v => utf8 (toString v.toInt)

/-- What is read where a token was written. A literal has no sign in a source text: the sign is an
operator, and the digits behind it are a literal of their own. -/
def readBack : Token → List Token
  | op o => [op o]
  | lit v => if v < 0 then [op .minus, lit (0 - v)] else [lit v]

theorem source_of_neg {v : Int64} (h : v < 0) :
    (lit v).source = Operator.minus.byte :: utf8 (-v.toInt).toNat.repr := by
  have hneg : ¬0 ≤ v.toInt := Int.not_le.2 ((neg_iff_toInt_neg v).1 h)
  rw [source, Int.toString_eq_repr, Int.repr_eq_if, if_neg hneg, utf8_append]
  rfl

theorem source_of_nonneg {v : Int64} (h : ¬v < 0) : (lit v).source = utf8 v.toInt.toNat.repr := by
  have hnonneg : 0 ≤ v.toInt := Int.not_lt.1 (mt (neg_iff_toInt_neg v).2 h)
  rw [source, Int.toString_eq_repr, Int.repr_eq_if, if_pos hnonneg]

/-- A token that was written out is read back, whatever stands behind it, unless that is a digit. -/
theorem renders_source_append (t : Token) {ts : List Token} {s : List Byte} (h : Renders ts s)
    (hapart : startsWithDigit s = false) : Renders (t.readBack ++ ts) (t.source ++ s) := by
  have hhead : ∀ b, s.head? = some b → b.isDigit = false := by
    intro b hb
    rwa [startsWithDigit, hb] at hapart
  have hnumber (n : Nat) : Renders (lit (Int64.ofNat n) :: ts) (utf8 n.repr ++ s) := by
    have hcons := Renders.cons IsGap.nil (writtenAs_utf8_repr n) h fun _ => hhead
    rwa [List.nil_append] at hcons
  cases t with
  | op o => exact h.cons_op o
  | lit v =>
    by_cases hneg : v < 0
    · rw [source_of_neg hneg, readBack, if_pos hneg, ← ofNat_neg_toInt hneg]
      exact (hnumber _).cons_op .minus
    · rw [source_of_nonneg hneg, readBack, if_neg hneg]
      have hrenders := hnumber v.toInt.toNat
      rwa [ofNat_toInt hneg] at hrenders

end Token

/-- Tokens are read back as they were exactly if there are no negative literals among them. -/
theorem flatMap_readBack_eq_iff (ts : List Token) :
    ts.flatMap Token.readBack = ts ↔ ∀ v, .lit v ∈ ts → ¬v < 0 := by
  induction ts with
  | nil => simp
  | cons t ts ih =>
    rw [List.flatMap_cons]
    rcases t with o | v
    · simp [Token.readBack, ih]
    · by_cases hneg : v < 0
      · -- a sign has come in the place of the literal
        refine iff_of_false ?_ fun h => h v (by simp) hneg
        simp [Token.readBack, hneg]
      · rw [Token.readBack, if_neg hneg, List.singleton_append, List.cons.injEq, ih]
        constructor
        · rintro ⟨-, h⟩ w hw
          rcases List.mem_cons.1 hw with hw | hw
          · rwa [Token.lit.inj hw]
          · exact h w hw
        · exact fun h => ⟨rfl, fun w hw => h w (List.mem_cons_of_mem _ hw)⟩

/-! ## Lists of tokens -/

/-- Blanks that keep two tokens apart. -/
structure Separator where
  bytes : List Byte
  isGap : IsGap bytes
  ne_nil : bytes ≠ []

/-- Tokens as source text, one behind the other with the given separators between them. -/
def joined (sep : Nat → Separator) : List Token → List Byte
  | [] => []
  | [t] => t.source
  | t :: ts@(_ :: _) => t.source ++ ((sep 0).bytes ++ joined (fun n => sep (n + 1)) ts)

theorem Separator.not_startsWithDigit (sep : Separator) (s : List Byte) :
    startsWithDigit (sep.bytes ++ s) = false := by
  obtain ⟨b, bytes, hbytes⟩ := List.exists_cons_of_ne_nil sep.ne_nil
  have hblank : b.isBlank = true := sep.isGap.isBlank (by simp [hbytes])
  simp [hbytes, startsWithDigit, Byte.isDigit_eq_false_of_isBlank hblank]

theorem Renders.gap_append {gap s : List Byte} {ts : List Token} (hgap : IsGap gap)
    (h : Renders ts s) : Renders ts (gap ++ s) := by
  induction gap with
  | nil => exact h
  | cons b gap ih =>
    exact (ih fun x hx => hgap x (by simp [hx])).cons_blank (hgap.isBlank (by simp))

/-- What tokens write that are joined is what is read back of them, one after the other. -/
theorem renders_joined (sep : Nat → Separator) (ts : List Token) :
    Renders (ts.flatMap Token.readBack) (joined sep ts) := by
  fun_induction joined sep ts with
  | case1 sep => exact .nil IsGap.nil
  | case2 sep t =>
    have hrenders := t.renders_source_append (.nil IsGap.nil) rfl
    simpa using hrenders
  | case3 sep t u ts ih =>
    have hbehind := Renders.gap_append (sep 0).isGap ih
    rw [List.flatMap_cons]
    exact t.renders_source_append hbehind ((sep 0).not_startsWithDigit _)

/-- Tokens that are written out with any blanks between them are scanned without a fault, and they
are read back as they were, apart from negative literals: such a literal comes back as a minus sign
and the literal whose value is its negation in 64 bits. This is the number without its sign, except
for the least value, which is its own negation. What is written for a literal is what its line in a
listing shows as its value. -/
theorem textTokens_joined (name : String) (sep : Nat → Separator) (ts : List Token) :
    textTokens name (joined sep ts) = .ok (ts.flatMap Token.readBack) ∧
    (textTokens name (joined sep ts) = .ok ts ↔ ∀ v, .lit v ∈ ts → ¬v < 0) ∧
    (∀ o, (Token.op o).source = [o.byte] ∧ Operator.ofByte? o.byte = some o) ∧
    (∀ v, utf8 (Token.lit v).text = utf8 "Token IntLit, value " ++ (Token.lit v).source) ∧
    (∀ v : Int64, v < 0 → (Token.lit v).readBack = [.op .minus, .lit (0 - v)] ∧
      (v ≠ Int64.minValue → (0 - v).toInt = -v.toInt)) ∧
    (Token.lit Int64.minValue).readBack = [.op .minus, .lit Int64.minValue] := by
  have htokens : textTokens name (joined sep ts) = .ok (ts.flatMap Token.readBack) :=
    (Cursor.fst_tokens_eq_ok_iff name _ _).2 (renders_joined sep ts)
  refine ⟨htokens, ?_, fun o => ⟨rfl, Operator.ofByte?_byte o⟩, ?_, ?_, ?_⟩
  · rw [htokens, Except.ok.injEq, flatMap_readBack_eq_iff]
  · intro v
    exact utf8_append _ _
  · intro v hneg
    exact ⟨if_pos hneg, toInt_zero_sub⟩
  · have hneg : Int64.minValue < 0 := by decide
    have hleast : 0 - Int64.minValue = Int64.minValue := by decide
    rw [Token.readBack, if_pos hneg, hleast]

-- The least value is printed with a number that wraps to the least value.
example : textTokens "input" (Token.lit Int64.minValue).source =
    .ok [.op .minus, .lit Int64.minValue] := by
  decide +kernel

end ArithLex
