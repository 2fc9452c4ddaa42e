import ArithLex.Proofs.Run
import ArithLex.Proofs.Shift

/-!
# Collecting the tokens of a text

What `Cursor.tokens` gives for the bytes of a whole text. A text that writes tokens gives exactly
these and counts its line feeds; in any other text the first illegal byte is the fault, whatever
stands before it, and the cursor is left right behind that byte.

The two main results are the exactness of the grammar (`tokens_eq_ok_iff_layout`) and the law of the
first fault (`tokens_first_illegal`).
-/

namespace ArithLex.Cursor

/-! ## Texts with and without an illegal byte -/

/-- A text that writes tokens gives them, and is used up. -/
theorem tokens_of_renders (name : String) {ts : List Token} {s : List Byte} (h : Renders ts s) :
    (ofScript name (Script.ofBytes s)).unchunked.tokens =
      (.ok ts, facing name (lineBehind 1 s) []) := by
  have hrun := scansTo_of_renders name 1 h fun _ => endsLiteral_nil
  rw [List.append_nil] at hrun
  rw [tokens_congr (nextToken_ofBytes name s), hrun.tokens_eq, tokens_of_ended (nextToken_nil _ _)]
  simp [Except.map]

/-- A text with an illegal byte gives the first one as its fault. -/
theorem tokens_of_illegal (name : String) {front : List Byte} {b : Byte} (behind : List Byte)
    (hfront : ∀ x ∈ front, x.isLegal = true) (hb : b.isLegal = false) :
    (ofScript name (Script.ofBytes (front ++ b :: behind))).unchunked.tokens =
      (.error (.illegalByte b ⟨lineBehind 1 front, name⟩),
        facing name (lineBehind 1 front) (behind.map .byte)) := by
  obtain ⟨ts, hts⟩ := exists_renders hfront
  have hrun := scansTo_before_illegal name 1 hts hb (behind.map .byte)
  rw [tokens_congr (nextToken_ofBytes name _), List.map_append, List.map_cons, hrun.tokens_eq,
    tokens_of_fault (nextToken_illegal _ _ hb _)]
  rfl

/-- In the middle of an input, a text is scanned as if it stood alone, further down by the lines
before it. -/
theorem tokens_facing (name : String) (lines : UInt32) (s : List Byte) :
    (facing name (1 + lines) (s.map .byte)).tokens =
      ((ofScript name (Script.ofBytes s)).unchunked.tokens.1.mapError (Fault.down lines),
        (ofScript name (Script.ofBytes s)).unchunked.tokens.2.down lines) := by
  rw [tokens_congr (nextToken_ofBytes name s), ← tokens_down]
  rfl

theorem fst_tokens_ofBytes_of_renders (name : String) {ts : List Token} {s : List Byte}
    (h : Renders ts s) : (ofScript name (Script.ofBytes s)).tokens.1 = .ok ts := by
  have htokens := tokens_of_renders name h
  rw [tokens_unchunked] at htokens
  exact congrArg Prod.fst htokens

theorem fst_tokens_ofBytes_of_illegal (name : String) {front : List Byte} {b : Byte}
    (behind : List Byte) (hfront : ∀ x ∈ front, x.isLegal = true) (hb : b.isLegal = false) :
    (ofScript name (Script.ofBytes (front ++ b :: behind))).tokens.1 =
      .error (.illegalByte b ⟨lineBehind 1 front, name⟩) := by
  have htokens := tokens_of_illegal name behind hfront hb
  rw [tokens_unchunked] at htokens
  exact congrArg Prod.fst htokens

/-- A text with an illegal byte has no tokens. -/
theorem exists_error_iff (name : String) (s : List Byte) :
    (∃ f, (ofScript name (Script.ofBytes s)).tokens.1 = .error f) ↔
      ∃ b ∈ s, b.isLegal = false := by
  rcases legal_or_first_illegal s with hlegal | ⟨front, b, behind, rfl, hfront, hb⟩
  · obtain ⟨ts, hts⟩ := exists_renders hlegal
    rw [fst_tokens_ofBytes_of_renders name hts]
    simpa using hlegal
  · rw [fst_tokens_ofBytes_of_illegal name behind hfront hb]
    simpa using ⟨b, by simp, hb⟩

/-- Collecting the tokens of a text succeeds exactly with the tokens that the text writes. -/
theorem fst_tokens_eq_ok_iff (name : String) (s : List Byte) (ts : List Token) :
    (ofScript name (Script.ofBytes s)).tokens.1 = .ok ts ↔ Renders ts s := by
  constructor
  · intro h
    -- a text of legal bytes writes tokens, which have to be these
    rcases legal_or_first_illegal s with hlegal | ⟨front, b, behind, rfl, hfront, hb⟩
    · obtain ⟨us, hus⟩ := exists_renders hlegal
      rw [fst_tokens_ofBytes_of_renders name hus] at h
      obtain rfl : us = ts := Except.ok.inj h
      exact hus
    · rw [fst_tokens_ofBytes_of_illegal name behind hfront hb] at h
      contradiction
  · exact fst_tokens_ofBytes_of_renders name

/-! ## The grammar is exact -/

/-- Collecting the tokens of a text succeeds exactly if the text can be laid out in pieces, and then
gives the tokens of the pieces in order. Every line feed has then been counted, in 32 bits. Where
the number of a literal fits, its value is this number. -/
theorem tokens_eq_ok_iff_layout (name : String) (s : List Byte) (ts : List Token) :
    ((ofScript name (Script.ofBytes s)).tokens.1 = .ok ts ↔
      ∃ pieces last, IsLayout pieces last ∧ ts = pieces.map Piece.token ∧
        s = pieces.flatMap Piece.bytes ++ last) ∧
    ((ofScript name (Script.ofBytes s)).tokens.1 = .ok ts →
      (ofScript name (Script.ofBytes s)).tokens.2.line = lineBehind 1 s ∧
      (s.count Byte.newline < UInt32.size - 1 →
        (ofScript name (Script.ofBytes s)).tokens.2.line.toNat = 1 + s.count Byte.newline)) ∧
    (∀ digits v, (Token.lit v).WrittenAs digits →
      (Numeral.toNat digits : Int) ≤ Int64.maxValue.toInt → v.toInt = Numeral.toNat digits) := by
  refine ⟨?_, ?_, ?_⟩
  · rw [fst_tokens_eq_ok_iff, renders_iff_layout]
  · intro h
    have htokens := tokens_of_renders name ((fst_tokens_eq_ok_iff name s ts).1 h)
    rw [tokens_unchunked] at htokens
    have hline : (ofScript name (Script.ofBytes s)).tokens.2.line = lineBehind 1 s :=
      congrArg (·.2.line) htokens
    exact ⟨hline, fun hcount => by rw [hline, toNat_lineBehind_one hcount]⟩
  · intro digits v hwritten hle
    obtain ⟨-, -, rfl⟩ := Token.writtenAs_lit_iff.1 hwritten
    exact Numeral.toInt_wrapped_of_le hle

/-! ## The first fault -/

/-- Collecting the tokens of a text fails exactly if the text holds an illegal byte. The first of
them is the fault, on the line where it stands, which is also the line that is left. Collecting
again gives what the text behind that byte gives by itself, further down by the lines before it. -/
theorem tokens_first_illegal (name : String) (s : List Byte) :
    ((∃ f, (ofScript name (Script.ofBytes s)).tokens.1 = .error f) ↔
      ∃ b ∈ s, b.isLegal = false) ∧
    ∀ front b behind, s = front ++ b :: behind → (∀ x ∈ front, x.isLegal = true) →
      b.isLegal = false →
      let first := (ofScript name (Script.ofBytes s)).tokens
      let again := first.2.tokens
      let fresh := (ofScript name (Script.ofBytes behind)).tokens
      let lines := UInt32.ofNat ((front ++ [b]).count Byte.newline)
      first.1 = .error (.illegalByte b ⟨lineBehind 1 front, name⟩) ∧
        first.2.line = lineBehind 1 front ∧
        (s.count Byte.newline < UInt32.size - 1 →
          first.2.line.toNat = 1 + front.count Byte.newline) ∧
        again.1 = fresh.1.mapError (Fault.down lines) ∧ again.2.line = fresh.2.line + lines := by
  refine ⟨exists_error_iff name s, ?_⟩
  rintro front b behind rfl hfront hb first again fresh lines
  -- the illegal byte is no line feed
  have hlines : 1 + lines = lineBehind 1 front := by
    simp [lines, lineBehind, List.count_append, Byte.ne_newline_of_not_isLegal hb]
  have hfirst : (first.1, first.2.unchunked) = _ :=
    (tokens_unchunked _).symm.trans (tokens_of_illegal name behind hfront hb)
  obtain ⟨hfault, hleft⟩ := Prod.mk.inj hfirst
  have hline : first.2.line = lineBehind 1 front := congrArg Cursor.line hleft
  have hagain : (again.1, again.2.unchunked) =
      (fresh.1.mapError (Fault.down lines), fresh.2.unchunked.down lines) := by
    have htokens := tokens_facing name lines behind
    rw [hlines, tokens_unchunked] at htokens
    rw [← tokens_unchunked, hleft]
    exact htokens
  obtain ⟨hresult, hrest⟩ := Prod.mk.inj hagain
  refine ⟨hfault, hline, fun hcount => ?_, hresult, congrArg Cursor.line hrest⟩
  rw [hline, toNat_lineBehind_one]
  rw [List.count_append] at hcount
  omega

end ArithLex.Cursor
