import ArithLex.Grammar
import ArithLex.Lexing

/-!
# One scan, byte by byte

`Cursor.nextToken` passes over blanks first. Here it is unrolled by single reads (`nextToken_eq`),
which shows that a scan depends on its cursor only through the next read (`nextToken_congr`). A byte
that was handed back is therefore as good as a byte that the script has still to deliver, and all
laws of scanning can be stated for cursors with no byte pending:

* `nextToken_gap`: blanks are passed over, and their line feeds are counted;
* `nextToken_op` and `nextToken_illegal`: one byte is taken, and the cursor stands right behind it;
* `nextToken_digits`: a run of digits is taken whole, and what follows it decides how it ends.
-/

namespace ArithLex.Cursor

/-! ## A scan is settled by reads -/

/-- A scan goes on behind a blank, and is settled by any other byte or by what ends the reading. -/
theorem nextToken_eq (c : Cursor) :
    c.nextToken = match c.read with
      | (.item b, c') =>
        if b.isBlank then c'.nextToken
        else match Operator.ofByte? b with
          | some o => (.item (.op o), c')
          | none =>
            if b.isDigit then c'.literal (Int64.ofNat b.digitValue)
            else (.fault (.illegalByte b c'.position), c')
      | (.ended, c') => (.ended, c')
      | (.fault f, c') => (.fault f, c') := by
  rw [nextToken, passBlanks_eq]
  rcases c.read with ⟨b | _ | f, c'⟩
  · by_cases hb : b.isBlank = true
    · simp only [hb, if_true, nextToken]
    · rcases hop : Operator.ofByte? b with _ | o <;> simp [hb, hop]
  · rfl
  · rfl

/-- A scan depends on its cursor only through the next read. -/
theorem nextToken_congr {c d : Cursor} (h : c.read = d.read) : c.nextToken = d.nextToken := by
  rw [nextToken_eq, nextToken_eq d, h]

/-- A byte that the script delivered and that was handed back is scanned as if the script still had
it. -/
theorem nextToken_unread (name : String) (b : Byte) (line : UInt32) (rest : List Signal) :
    nextToken ⟨name, some b, lineAfter line b, Script.unchunked rest⟩ =
      (facing name line (.byte b :: rest)).nextToken :=
  nextToken_congr rfl

/-- The line feed that is pending where a text begins is scanned as if it were not there. -/
theorem nextToken_ofScript (name : String) (script : Script) :
    (ofScript name script).unchunked.nextToken = (facing name 1 script.signals).nextToken := by
  rw [nextToken_eq]
  rfl

theorem nextToken_ofBytes (name : String) (s : List Byte) :
    (ofScript name (Script.ofBytes s)).unchunked.nextToken =
      (facing name 1 (s.map .byte)).nextToken := by
  rw [nextToken_ofScript, Script.signals_ofBytes]

/-! ## Gaps -/

/-- Blanks in front of what a scan meets only move the line. -/
theorem nextToken_gap (name : String) (line : UInt32) {gap : List Byte} (hgap : IsGap gap)
    (rest : List Signal) :
    (facing name line (gap.map .byte ++ rest)).nextToken =
      (facing name (lineBehind line gap) rest).nextToken := by
  induction gap generalizing line with
  | nil => rw [List.map_nil, List.nil_append, lineBehind_nil]
  | cons b gap ih =>
    have hb : b.isBlank = true := hgap.isBlank (by simp)
    have htail : IsGap gap := fun x hx => hgap x (by simp [hx])
    rw [List.map_cons, List.cons_append, nextToken_eq, read_byte, lineBehind_cons, ← ih _ htail]
    simp only [hb, if_true]

/-! ## Single bytes -/

/-- An operator is taken by itself. -/
theorem nextToken_op (name : String) (line : UInt32) (o : Operator) (rest : List Signal) :
    (facing name line (.byte o.byte :: rest)).nextToken =
      (.item (.op o), facing name line rest) := by
  have hline : lineAfter line o.byte = line :=
    lineAfter_of_ne (Byte.ne_newline_of_not_isBlank o.isBlank_byte) line
  rw [nextToken_eq, read_byte, hline]
  simp

/-- A byte that starts no token is a fault on the line it stands on, and is used up. -/
theorem nextToken_illegal (name : String) (line : UInt32) {b : Byte} (hb : b.isLegal = false)
    (rest : List Signal) :
    (facing name line (.byte b :: rest)).nextToken =
      (.fault (.illegalByte b ⟨line, name⟩), facing name line rest) := by
  simp only [Byte.isLegal_eq, Bool.or_eq_false_iff, Option.isSome_eq_false_iff,
    Option.isNone_iff_eq_none] at hb
  obtain ⟨⟨hblank, hop⟩, hdigit⟩ := hb
  have hline : lineAfter line b = line :=
    lineAfter_of_ne (Byte.ne_newline_of_not_isBlank hblank) line
  rw [nextToken_eq, read_byte, hline]
  simp [hblank, hop, hdigit, position]

theorem nextToken_nil (name : String) (line : UInt32) :
    (facing name line []).nextToken = (.ended, facing name line []) := by
  rw [nextToken_eq]
  rfl

theorem nextToken_finish (name : String) (line : UInt32) (rest : List Signal) :
    (facing name line (.finish :: rest)).nextToken = (.ended, facing name line rest) := by
  rw [nextToken_eq]
  rfl

theorem nextToken_failure (name : String) (line : UInt32) (e : IoFailure)
    (h : e.isRetried = false) (rest : List Signal) :
    (facing name line (.failure e h :: rest)).nextToken =
      (.fault (.cannotRead name e), facing name line rest) := by
  rw [nextToken_eq, read_failure]

/-! ## Digits -/

/-- A literal takes all digits that follow. The read behind them decides how it ends: a byte is
handed back, an end of input is used up, and a failure takes the literal along. -/
theorem literal_digits (name : String) (line : UInt32) {digits : List Byte}
    (hdigits : ∀ d ∈ digits, d.isDigit = true) {rest : List Signal}
    (hrest : ∀ x, rest.head? = some x → x.delivers Byte.isDigit = false) (v : Int64) :
    (facing name line (digits.map .byte ++ rest)).literal v =
      match (facing name line rest).read with
      | (.item b, c) => (.item (.lit (digits.foldl Numeral.push v)), c.unread b)
      | (.ended, c) => (.item (.lit (digits.foldl Numeral.push v)), c)
      | (.fault f, c) => (.fault f, c) := by
  induction digits generalizing v with
  | nil =>
    rw [List.map_nil, List.nil_append, literal_eq]
    match rest with
    | [] => rfl
    | .finish :: rest => rfl
    | .failure e h :: rest => rw [read_failure]
    | .byte b :: rest =>
      have hb : b.isDigit = false := hrest (.byte b) rfl
      simp [hb]
  | cons d digits ih =>
    have hd : d.isDigit = true := hdigits d (by simp)
    have hline : lineAfter line d = line := lineAfter_of_ne (Byte.ne_newline_of_isDigit hd) line
    rw [List.map_cons, List.cons_append, literal_eq, read_byte, hline]
    simp only [hd, if_true, List.foldl_cons]
    exact ih (fun x hx => hdigits x (by simp [hx])) _

/-- A run of digits that nothing extends is one literal, and ends as the literal does. -/
theorem nextToken_digits (name : String) (line : UInt32) {digits : List Byte} (hne : digits ≠ [])
    (hdigits : ∀ d ∈ digits, d.isDigit = true) {rest : List Signal}
    (hrest : ∀ x, rest.head? = some x → x.delivers Byte.isDigit = false) :
    (facing name line (digits.map .byte ++ rest)).nextToken =
      match (facing name line rest).read with
      | (.item b, c) => (.item (.lit (Numeral.wrapped digits)), c.unread b)
      | (.ended, c) => (.item (.lit (Numeral.wrapped digits)), c)
      | (.fault f, c) => (.fault f, c) := by
  obtain ⟨d, ds, rfl⟩ := List.exists_cons_of_ne_nil hne
  have hd : d.isDigit = true := hdigits d (by simp)
  have hline : lineAfter line d = line := lineAfter_of_ne (Byte.ne_newline_of_isDigit hd) line
  rw [List.map_cons, List.cons_append, nextToken_eq, read_byte, hline]
  simp only [Byte.isBlank_eq_false_of_isDigit hd, Operator.ofByte?_of_isDigit hd, hd, if_true,
    Bool.false_eq_true, if_false]
  rw [literal_digits name line (fun x hx => hdigits x (by simp [hx])) hrest, Numeral.wrapped_cons]

/-- What ends a literal and is left to the next scan: a byte that is no digit, or the end of the
script, which is never used up. -/
def EndsLiteral (rest : List Signal) : Prop :=
  rest = [] ∨ ∃ b tail, rest = .byte b :: tail ∧ b.isDigit = false

theorem endsLiteral_nil : EndsLiteral [] :=
  .inl rfl

/-- Where a literal leaves its end to the next scan, that scan is as if nothing had been read
ahead. -/
theorem nextToken_digits_of_endsLiteral (name : String) (line : UInt32) {digits : List Byte}
    (hne : digits ≠ []) (hdigits : ∀ d ∈ digits, d.isDigit = true) {rest : List Signal}
    (hrest : EndsLiteral rest) :
    ∃ c, (facing name line (digits.map .byte ++ rest)).nextToken =
        (.item (.lit (Numeral.wrapped digits)), c) ∧
      c.nextToken = (facing name line rest).nextToken := by
  rcases hrest with rfl | ⟨b, tail, rfl, hb⟩
  · exact ⟨_, nextToken_digits name line hne hdigits (by simp), rfl⟩
  · have hhead : ∀ x, (Signal.byte b :: tail).head? = some x → x.delivers Byte.isDigit = false := by
      intro x hx
      obtain rfl : Signal.byte b = x := by simpa using hx
      exact hb
    exact ⟨_, nextToken_digits name line hne hdigits hhead, nextToken_unread name b line tail⟩

/-- An end of input ends a literal, and no later scan meets it. -/
theorem nextToken_digits_finish (name : String) (line : UInt32) {digits : List Byte}
    (hne : digits ≠ []) (hdigits : ∀ d ∈ digits, d.isDigit = true) (rest : List Signal) :
    (facing name line (digits.map .byte ++ .finish :: rest)).nextToken =
      (.item (.lit (Numeral.wrapped digits)), facing name line rest) :=
  nextToken_digits name line hne hdigits (by simp)

/-- A failure behind digits is all that the scan gives. -/
theorem nextToken_digits_failure (name : String) (line : UInt32) {digits : List Byte}
    (hne : digits ≠ []) (hdigits : ∀ d ∈ digits, d.isDigit = true) (e : IoFailure)
    (h : e.isRetried = false) (rest : List Signal) :
    (facing name line (digits.map .byte ++ .failure e h :: rest)).nextToken =
      (.fault (.cannotRead name e), facing name line rest) := by
  rw [nextToken_digits name line hne hdigits (by simp), read_failure]

end ArithLex.Cursor
