import ArithLex.Cursor
import ArithLex.Token

/-!
# Lexing

`Cursor.nextToken` makes one scan: it passes over blanks, takes the longest token that follows, and
leaves the cursor behind it. A literal ends where a byte that is no digit follows, and that byte is
handed back, so that the cursor alone carries all that the next scan needs.

Both loops of a scan end because every byte that is read makes the cursor smaller, and each is
unrolled by one read (`passBlanks_eq`, `literal_eq`). Loops over scans end because a scan that finds
a token makes the cursor smaller (`size_nextToken_lt`).
-/

namespace ArithLex.Cursor

/-! ## One token -/

/-- Reads on to the first byte that is not blank. -/
def passBlanks (c : Cursor) : Pull Byte × Cursor :=
  match h : c.read with
  | (.item b, c') =>
    have : c'.size < c.size := by simpa [h] using size_read_lt (c := c)
    if b.isBlank then c'.passBlanks else (.item b, c')
  | (.ended, c') => (.ended, c')
  | (.fault f, c') => (.fault f, c')
termination_by c.size

/-- Takes the rest of a literal whose digits so far have the value `v`. An end of input ends the
literal and is used up by it; where a read fails, the digits are lost. -/
def literal (c : Cursor) (v : Int64) : Pull Token × Cursor :=
  match h : c.read with
  | (.item b, c') =>
    have : c'.size < c.size := by simpa [h] using size_read_lt (c := c)
    if b.isDigit then c'.literal (Numeral.push v b) else (.item (.lit v), c'.unread b)
  | (.ended, c') => (.item (.lit v), c')
  | (.fault f, c') => (.fault f, c')
termination_by c.size

/-- Scans one token. The input ends where nothing but blanks is left before its end; a byte that
starts no token is a fault on the current line, and the next scan goes on behind it. -/
def nextToken (c : Cursor) : Pull Token × Cursor :=
  match c.passBlanks with
  | (.item b, c) =>
    match Operator.ofByte? b with
    | some o => (.item (.op o), c)
    | none =>
      if b.isDigit then c.literal (Int64.ofNat b.digitValue)
      else (.fault (.illegalByte b c.position), c)
  | (.ended, c) => (.ended, c)
  | (.fault f, c) => (.fault f, c)

theorem passBlanks_eq (c : Cursor) :
    c.passBlanks = match c.read with
      | (.item b, c') => if b.isBlank then c'.passBlanks else (.item b, c')
      | (.ended, c') => (.ended, c')
      | (.fault f, c') => (.fault f, c') := by
  rw [passBlanks]
  split <;> simp_all

theorem literal_eq (c : Cursor) (v : Int64) :
    c.literal v = match c.read with
      | (.item b, c') =>
        if b.isDigit then c'.literal (Numeral.push v b) else (.item (.lit v), c'.unread b)
      | (.ended, c') => (.item (.lit v), c')
      | (.fault f, c') => (.fault f, c') := by
  rw [literal]
  split <;> simp_all

/-! ## Progress -/

/-- Only where no byte is found that is not blank may the cursor stay as large as it was. -/
theorem size_passBlanks (c : Cursor) :
    c.passBlanks.2.size < c.size ∨ c.passBlanks.1 = .ended ∧ c.passBlanks.2.size ≤ c.size := by
  induction c using read_induction with
  | step c ih =>
    have hle := c.size_read_le
    have hlt := size_read_lt (c := c)
    rw [passBlanks_eq]
    rcases h : c.read with ⟨b | _ | f, c'⟩
    · simp only [h, ne_eq, reduceCtorEq, not_false_eq_true, forall_const] at hlt ⊢
      split
      · have hrest := ih b c' h
        omega
      · exact .inl hlt
    · rw [h] at hle
      exact .inr ⟨rfl, hle⟩
    · simp only [h, ne_eq, reduceCtorEq, not_false_eq_true, forall_const] at hlt ⊢
      exact .inl hlt

theorem size_literal_le (c : Cursor) (v : Int64) : (c.literal v).2.size ≤ c.size := by
  induction c using read_induction generalizing v with
  | step c ih =>
    have hle := c.size_read_le
    have hitem (b : Byte) := size_read_of_item (c := c) (b := b)
    rw [literal_eq]
    rcases h : c.read with ⟨b | _ | f, c'⟩
    · simp only [h] at hle hitem ⊢
      split
      · have hrest := ih b c' h (Numeral.push v b)
        omega
      · -- the byte behind the literal is used up by the read and then handed back
        have hunread := c'.size_unread_le b
        have hread := hitem b rfl
        simp only
        omega
    · simpa [h] using hle
    · simpa [h] using hle

/-- Only a scan that meets the end of the input may leave the cursor as large as it was. -/
theorem size_nextToken_lt_of_ne_ended {c : Cursor} (h : c.nextToken.1 ≠ .ended) :
    c.nextToken.2.size < c.size := by
  have hpass := c.size_passBlanks
  unfold nextToken at h ⊢
  split at h
  · rename_i b c' hb
    simp only [hb, reduceCtorEq, false_and, or_false] at hpass
    split
    · exact hpass
    · split
      · exact Nat.lt_of_le_of_lt (size_literal_le c' _) hpass
      · exact hpass
  · contradiction
  · rename_i hf
    simpa [hf] using hpass

/-- A scan that finds a token makes the cursor smaller. -/
theorem size_nextToken_lt {c : Cursor} {t : Token} (h : c.nextToken.1 = .item t) :
    c.nextToken.2.size < c.size :=
  size_nextToken_lt_of_ne_ended (by simp [h])

/-- Induction along the scans that find tokens: what holds of a cursor if it holds behind the token
that is found there holds of every cursor. -/
@[elab_as_elim]
theorem token_induction {motive : Cursor → Prop}
    (step : ∀ c, (∀ t c', c.nextToken = (.item t, c') → motive c') → motive c) (c : Cursor) :
    motive c := by
  induction hn : c.size using Nat.strongRecOn generalizing c with
  | ind n ih =>
    refine step c fun t c' h => ?_
    have hlt := size_nextToken_lt (congrArg Prod.fst h)
    rw [h] at hlt
    exact ih _ (hn ▸ hlt) c' rfl

end ArithLex.Cursor
