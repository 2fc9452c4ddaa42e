import ArithLex.Listing

/-!
# The lines of a listing

A token is listed as one line: its text (`Token.text_eq`) has no line feed, and one follows it
(`Token.count_newline_line`). The bytes of a listing are therefore cut into lines by their line
feeds, of which there are as many as tokens (`Listing.count_newline_bytesOf`).
-/

namespace ArithLex

/-! ## Line feeds in encoded texts -/

/-- Only a line feed is encoded with the byte of a line feed. -/
theorem eq_newline_of_mem_utf8EncodeChar {c : Char} (h : Byte.newline ∈ String.utf8EncodeChar c) :
    c = '\n' := by
  have hval : c.val.toNat = 10 := by
    unfold String.utf8EncodeChar at h
    simp only [Byte.newline] at h
    split at h
    · simp only [List.mem_singleton, ← UInt8.toNat_inj, UInt8.toNat_ofNat', UInt8.reduceToNat] at h
      omega
    · -- every byte of a longer encoding is at least 128
      split at h
      · simp only [List.mem_cons, List.not_mem_nil, or_false, ← UInt8.toNat_inj,
          UInt8.toNat_ofNat', UInt8.reduceToNat] at h
        omega
      · split at h
        all_goals
          simp only [List.mem_cons, List.not_mem_nil, or_false, ← UInt8.toNat_inj,
            UInt8.toNat_ofNat', UInt8.reduceToNat] at h
          omega
  exact Char.ext (UInt32.toNat_inj.1 hval)

theorem newline_not_mem_utf8 {s : String} (h : '\n' ∉ s.toList) : Byte.newline ∉ utf8 s := by
  intro hmem
  obtain ⟨c, hc, hbyte⟩ := List.mem_flatMap.1 hmem
  rw [eq_newline_of_mem_utf8EncodeChar hbyte] at hc
  exact h hc

/-! ## Tokens -/

/-- The texts of all tokens. -/
theorem Token.text_eq (t : Token) :
    t.text = match t with
      | .op .plus => "Token Plus"
      | .op .minus => "Token Minus"
      | .op .star => "Token Star"
      | .op .slash => "Token Slash"
      | .lit v => "Token IntLit, value " ++ toString v.toInt := by
  rcases t with o | v
  · cases o <;> rfl
  · rfl

theorem newline_not_mem_toString (v : Int) : '\n' ∉ (toString v).toList := by
  have hdigits (n : Nat) : '\n' ∉ n.repr.toList := by
    rw [Nat.toList_repr]
    intro hmem
    exact absurd (Nat.isDigit_of_mem_toDigits (by decide) (by decide) hmem) (by decide)
  rw [Int.toString_eq_repr, Int.repr_eq_if]
  -- a negative number has a minus sign before the digits
  split
  · exact hdigits _
  · simpa using hdigits _

theorem Token.newline_not_mem_text (t : Token) : '\n' ∉ t.text.toList := by
  rcases t with o | v
  · cases o <;> decide
  · have hlabel : '\n' ∉ ("Token " ++ "IntLit" ++ ", value ").toList := by decide
    have hvalue := newline_not_mem_toString v.toInt
    simp only [text, className, String.toList_append, List.mem_append, not_or] at hlabel ⊢
    exact ⟨hlabel, hvalue⟩

/-- The line of a token has one line feed. -/
theorem Token.count_newline_line (t : Token) : (utf8 t.line).count Byte.newline = 1 := by
  have htext := List.count_eq_zero.2 (newline_not_mem_utf8 t.newline_not_mem_text)
  rw [line, utf8_append, List.count_append, htext]
  decide

/-! ## Listings -/

/-- The bytes that list tokens: their lines, one behind the other. -/
def Listing.bytesOf (ts : List Token) : List Byte :=
  ts.flatMap fun t => utf8 t.line

@[simp] theorem Listing.bytesOf_nil : bytesOf [] = [] := rfl

@[simp] theorem Listing.bytesOf_cons (t : Token) (ts : List Token) :
    bytesOf (t :: ts) = utf8 t.line ++ bytesOf ts := rfl

/-- There are as many line feeds in a listing as there are tokens. -/
theorem Listing.count_newline_bytesOf (ts : List Token) :
    (bytesOf ts).count Byte.newline = ts.length := by
  induction ts with
  | nil => rfl
  | cons t ts ih =>
    rw [bytesOf_cons, List.count_append, t.count_newline_line, ih, List.length_cons]
    omega

end ArithLex
