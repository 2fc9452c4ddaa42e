import Mathlib.Algebra.Group.Nat.Defs
import ArithLex.Proofs.WholeText

/-!
# Texts one behind the other

What collecting the tokens of two texts says about the text that they make together. A fault in the
first text stays the fault, wherever the text ends. Otherwise the second text is scanned as if it
stood alone, further down by the lines before it (`textTokens_of_scansTo`), unless its first digits
run into a literal at the end of the first. Then they lengthen that literal, whose value moves up by
as many places (`Numeral.wrapped_append`), and what is behind them is scanned as if it stood alone.

The main result is `textTokens_append`.
-/

namespace ArithLex

/-! ## Numerals one behind the other -/

namespace Numeral

/-- Digits behind a numeral move its number up by as many places. -/
theorem toNat_append (front digits : List Byte) :
    toNat (front ++ digits) = toNat front * 10 ^ digits.length + toNat digits := by
  suffices h : ∀ n : Nat, digits.foldl (fun n d => n * 10 + d.digitValue) n =
      n * 10 ^ digits.length + toNat digits by
    rw [toNat, List.foldl_append]
    exact h _
  induction digits with
  | nil => simp [toNat]
  | cons d ds ih =>
    intro n
    have hzero : toNat (d :: ds) = (0 * 10 + d.digitValue) * 10 ^ ds.length + toNat ds := by
      rw [← ih]
      rfl
    rw [List.foldl_cons, ih, hzero, Nat.zero_mul, Nat.zero_add, List.length_cons, Nat.pow_succ',
      Nat.add_mul, Nat.mul_assoc]
    omega

/-- Digits behind a literal move its value up by as many places, in 64 bits. -/
theorem wrapped_append (front digits : List Byte) :
    wrapped (front ++ digits) =
      wrapped front * Int64.ofNat (10 ^ digits.length) + Int64.ofNat (toNat digits) := by
  rw [wrapped_eq, wrapped_eq, toNat_append, Int64.ofNat_add, Int64.ofNat_mul]

end Numeral

/-! ## Texts -/

/-- The tokens of a text that stands alone, or its first fault. -/
def textTokens (name : String) (s : List Byte) : Except Fault (List Token) :=
  (Cursor.ofScript name (Script.ofBytes s)).tokens.1

theorem textTokens_eq_unchunked (name : String) (s : List Byte) :
    textTokens name s = (Cursor.ofScript name (Script.ofBytes s)).unchunked.tokens.1 := by
  rw [Cursor.tokens_unchunked]
  rfl

/-- Whether a text starts with a digit, so that it would run into a literal in front of it. -/
def startsWithDigit (s : List Byte) : Bool :=
  s.head?.any Byte.isDigit

open Cursor (facing ScansTo EndsLiteral)

theorem endsLiteral_of_not_startsWithDigit {s : List Byte} (h : startsWithDigit s = false) :
    EndsLiteral (s.map .byte) := by
  rcases s with _ | ⟨b, s⟩
  · exact .inl rfl
  · exact .inr ⟨b, s.map .byte, rfl, h⟩

/-- If scanning through a text gives tokens and comes to a rest of it, the rest is scanned as if it
stood alone. -/
theorem textTokens_of_scansTo {name : String} {s rest : List Byte} {ts : List Token}
    {lines : UInt32}
    (h : ScansTo (facing name 1 (s.map .byte)) (ts.map .item)
      (facing name (1 + lines) (rest.map .byte))) :
    textTokens name s = match textTokens name rest with
      | .ok us => .ok (ts ++ us)
      | .error f => .error (f.down lines) := by
  rw [textTokens_eq_unchunked, Cursor.tokens_congr (Cursor.nextToken_ofBytes name s), h.tokens_eq,
    Cursor.tokens_facing, ← textTokens_eq_unchunked]
  rcases textTokens name rest with f | us <;> rfl

/-- A text that writes tokens, and one behind it that does not run into them. -/
theorem textTokens_append_of_renders (name : String) {s t : List Byte} {ts : List Token}
    (hs : Renders ts s) (hapart : endsInDigit s = true → startsWithDigit t = false) :
    textTokens name (s ++ t) = match textTokens name t with
      | .ok us => .ok (ts ++ us)
      | .error f => .error (f.down (UInt32.ofNat (s.count Byte.newline))) := by
  apply textTokens_of_scansTo
  rw [List.map_append]
  exact Cursor.scansTo_of_renders name 1 hs fun h => endsLiteral_of_not_startsWithDigit (hapart h)

/-- Digits that nothing extends are one token between the text before them and the text behind. -/
theorem textTokens_append_digits (name : String) {front digits after : List Byte}
    {ts : List Token} (hfront : Renders ts front) (hend : endsInDigit front = false)
    (hne : digits ≠ []) (hdigits : ∀ d ∈ digits, d.isDigit = true)
    (hafter : startsWithDigit after = false) :
    textTokens name (front ++ (digits ++ after)) = match textTokens name after with
      | .ok us => .ok (ts ++ .lit (Numeral.wrapped digits) :: us)
      | .error f => .error (f.down (UInt32.ofNat (front.count Byte.newline))) := by
  have hwritten := Token.writtenAs_wrapped hne hdigits
  have hrun : ScansTo (facing name 1 ((front ++ (digits ++ after)).map .byte))
      ((ts ++ [Token.lit (Numeral.wrapped digits)]).map .item)
      (facing name (1 + UInt32.ofNat (front.count Byte.newline)) (after.map .byte)) := by
    rw [List.map_append, List.map_append, List.map_append]
    refine (Cursor.scansTo_of_renders name 1 hfront fun h => ?_).trans
      (Cursor.scansTo_of_writtenAs name _ hwritten fun _ =>
        endsLiteral_of_not_startsWithDigit hafter)
    rw [hend] at h
    contradiction
  rw [textTokens_of_scansTo hrun]
  rcases textTokens name after with f | us
  · rfl
  · simp

/-- A text that ends in a digit and has tokens ends in digits which are its last token. -/
theorem exists_last_literal (name : String) {s : List Byte} {ts : List Token}
    (hs : textTokens name s = .ok ts) (hend : endsInDigit s = true) :
    ∃ front digits us, s = front ++ digits ∧ endsInDigit front = false ∧ digits ≠ [] ∧
      (∀ d ∈ digits, d.isDigit = true) ∧ Renders us front ∧
      ts = us ++ [.lit (Numeral.wrapped digits)] := by
  obtain ⟨front, digits, rfl, hfront, hdigits⟩ := exists_trailing_digits s
  have hne : digits ≠ [] := by
    rintro rfl
    rw [List.append_nil, hfront] at hend
    contradiction
  have hlegal : ∀ b ∈ front, b.isLegal = true := fun b hb =>
    ((Cursor.fst_tokens_eq_ok_iff name _ ts).1 hs).isLegal b (List.mem_append_left digits hb)
  obtain ⟨us, hus⟩ := exists_renders hlegal
  have hapart : startsWithDigit [] = false := rfl
  have hlast := textTokens_append_digits name hus hfront hne hdigits hapart
  have hnil : textTokens name [] = .ok [] :=
    (Cursor.fst_tokens_eq_ok_iff name [] []).2 (.nil IsGap.nil)
  rw [List.append_nil, hs, hnil] at hlast
  exact ⟨front, digits, us, rfl, hfront, hne, hdigits, hus, Except.ok.inj hlast⟩

/-- What two texts give together. A fault of the first is the fault. If the first has tokens, those
of the second stand behind them, or its fault further down, unless the first ends in a digit and the
second starts with one. In that case the digits at the start of the second lengthen the last literal
of the first, in 64 bits, and what is behind these digits is scanned as if it stood alone. -/
theorem textTokens_append (name : String) (s t : List Byte) :
    (∀ f, textTokens name s = .error f → textTokens name (s ++ t) = .error f) ∧
    (∀ ts, textTokens name s = .ok ts → ¬(endsInDigit s = true ∧ startsWithDigit t = true) →
      textTokens name (s ++ t) = match textTokens name t with
        | .ok us => .ok (ts ++ us)
        | .error f => .error (f.down (UInt32.ofNat (s.count Byte.newline)))) ∧
    (∀ ts v digits after, textTokens name s = .ok (ts ++ [.lit v]) → endsInDigit s = true →
      t = digits ++ after → digits ≠ [] → (∀ d ∈ digits, d.isDigit = true) →
      startsWithDigit after = false →
      textTokens name (s ++ t) = match textTokens name after with
        | .ok us => .ok (ts ++ .lit
            (v * Int64.ofNat (10 ^ digits.length) + Int64.ofNat (Numeral.toNat digits)) :: us)
        | .error f => .error (f.down (UInt32.ofNat (s.count Byte.newline)))) := by
  refine ⟨?_, ?_, ?_⟩
  · intro f hs
    rcases legal_or_first_illegal s with hlegal | ⟨front, b, behind, rfl, hfront, hb⟩
    · obtain ⟨ts, hts⟩ := exists_renders hlegal
      rw [textTokens, Cursor.fst_tokens_ofBytes_of_renders name hts] at hs
      contradiction
    · rw [textTokens, Cursor.fst_tokens_ofBytes_of_illegal name behind hfront hb] at hs
      rw [textTokens, List.append_assoc, List.cons_append,
        Cursor.fst_tokens_ofBytes_of_illegal name (behind ++ t) hfront hb]
      exact hs
  · intro ts hs hapart
    have hrenders := (Cursor.fst_tokens_eq_ok_iff name s ts).1 hs
    exact textTokens_append_of_renders name hrenders fun hend => by simpa [hend] using hapart
  · rintro ts v digits after hs hend rfl hne hdigits hafter
    obtain ⟨front, last, us, rfl, hfront, hlast, hlastDigits, hus, hts⟩ :=
      exists_last_literal name hs hend
    obtain ⟨rfl, hv⟩ := List.append_inj' hts rfl
    obtain rfl : v = Numeral.wrapped last := by simpa using hv
    have hlong : ∀ d ∈ last ++ digits, d.isDigit = true := by
      intro d hd
      rcases List.mem_append.1 hd with hd | hd
      · exact hlastDigits d hd
      · exact hdigits d hd
    have hlines : (front ++ last).count Byte.newline = front.count Byte.newline := by
      rw [List.count_append, (Token.writtenAs_wrapped hlast hlastDigits).count_newline,
        Nat.add_zero]
    have htext : front ++ last ++ (digits ++ after) = front ++ (last ++ digits ++ after) := by
      simp
    rw [hlines, htext, ← Numeral.wrapped_append]
    exact textTokens_append_digits name hus hfront (by simp [hlast]) hlong hafter

-- The literal goes on where the second text starts, and the sign behind it is a token by itself.
example : textTokens "input" (utf8 "12" ++ utf8 "3+") = .ok [.lit 123, .op .plus] := by
  decide +kernel

end ArithLex
