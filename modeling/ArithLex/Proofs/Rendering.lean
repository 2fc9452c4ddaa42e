import Mathlib.Data.List.Chain
import Mathlib.Data.List.Induction
import ArithLex.Grammar

/-!
# Texts and the tokens they write

Every text of legal bytes writes some tokens (`exists_renders`): one more byte in front joins the
first gap, stands for itself, or lengthens the first literal. A text can also be laid out as a list
of pieces, each a token with the gap before it (`renders_iff_layout`). Any text is cut at its first
illegal byte (`legal_or_first_illegal`) or before the digits at its end (`exists_trailing_digits`).
-/

namespace ArithLex

/-! ## One more byte in front -/

theorem IsGap.nil : IsGap [] := by
  simp [IsGap]

theorem IsGap.cons {b : Byte} {gap : List Byte} (hb : b.isBlank = true) (h : IsGap gap) :
    IsGap (b :: gap) := by
  intro x hx
  rcases List.mem_cons.1 hx with rfl | hx
  · exact Byte.mem_blanks_iff.2 hb
  · exact h x hx

theorem Renders.cons_blank {b : Byte} (hb : b.isBlank = true) {ts : List Token} {s : List Byte}
    (h : Renders ts s) : Renders ts (b :: s) := by
  cases h with
  | nil hgap => exact .nil (hgap.cons hb)
  | cons hgap ht hrest hsep => exact .cons (hgap.cons hb) ht hrest hsep

theorem Renders.cons_op (o : Operator) {ts : List Token} {s : List Byte} (h : Renders ts s) :
    Renders (.op o :: ts) (o.byte :: s) := by
  have hwritten : (Token.op o).WrittenAs [o.byte] := rfl
  have hcons := Renders.cons IsGap.nil hwritten h (by simp [Token.value?])
  exact hcons

theorem Token.writtenAs_wrapped {digits : List Byte} (hne : digits ≠ [])
    (hdigits : ∀ d ∈ digits, d.isDigit = true) :
    (Token.lit (Numeral.wrapped digits)).WrittenAs digits :=
  Token.writtenAs_lit_iff.2 ⟨hne, hdigits, rfl⟩

/-- Where a rendering starts with a digit, it starts with a literal and without a gap. -/
theorem Renders.exists_first_literal {ts : List Token} {d : Byte} {s : List Byte}
    (h : Renders ts (d :: s)) (hd : d.isDigit = true) :
    ∃ v us digits rest, ts = .lit v :: us ∧ d :: s = digits ++ rest ∧
      (Token.lit v).WrittenAs digits ∧ Renders us rest ∧
      ∀ b, rest.head? = some b → b.isDigit = false := by
  generalize hs : d :: s = text at h
  cases h with
  | nil hgap =>
    have hblank : d.isBlank = true := hgap.isBlank (by simp [← hs])
    rw [Byte.isDigit_eq_false_of_isBlank hblank] at hd
    contradiction
  | @cons gap written rest t us hgap ht hrest hsep =>
    -- the first byte is a digit, so it is neither in a gap nor an operator
    rcases gap with _ | ⟨b, gap⟩
    · rcases t with o | v
      · obtain rfl : written = [o.byte] := ht
        obtain rfl : d = o.byte := (List.cons.inj hs).1
        rw [o.isDigit_byte] at hd
        contradiction
      · exact ⟨v, us, written, rest, rfl, rfl, ht, hrest, hsep rfl⟩
    · obtain rfl : d = b := (List.cons.inj hs).1
      rw [Byte.isDigit_eq_false_of_isBlank (hgap.isBlank (by simp))] at hd
      contradiction

theorem Renders.exists_cons_digit {d : Byte} (hd : d.isDigit = true) {ts : List Token}
    {s : List Byte} (h : Renders ts s) : ∃ us, Renders us (d :: s) := by
  have hnew (hhead : ∀ b, s.head? = some b → b.isDigit = false) : ∃ us, Renders us (d :: s) := by
    have hwritten := Token.writtenAs_wrapped (List.cons_ne_nil d []) (by simpa using hd)
    have hcons := Renders.cons IsGap.nil hwritten h fun _ => hhead
    exact ⟨_, hcons⟩
  rcases s with _ | ⟨y, s⟩
  · exact hnew (by simp)
  · by_cases hy : y.isDigit = true
    · -- `d` joins the literal that starts with `y`
      obtain ⟨v, us, digits, rest, -, hs, ht, hrest, hsep⟩ := h.exists_first_literal hy
      have hdigits : ∀ z ∈ d :: digits, z.isDigit = true := by
        intro z hz
        rcases List.mem_cons.1 hz with rfl | hz
        · exact hd
        · exact ht.isDigit hz
      have hwritten := Token.writtenAs_wrapped (List.cons_ne_nil d digits) hdigits
      have hcons := Renders.cons IsGap.nil hwritten hrest fun _ => hsep
      rw [hs]
      exact ⟨_, hcons⟩
    · exact hnew (by simpa using hy)

/-- Every text of legal bytes writes some tokens. -/
theorem exists_renders {s : List Byte} (h : ∀ b ∈ s, b.isLegal = true) : ∃ ts, Renders ts s := by
  induction s with
  | nil => exact ⟨[], .nil IsGap.nil⟩
  | cons b s ih =>
    obtain ⟨ts, hts⟩ := ih fun x hx => h x (by simp [hx])
    have hb := h b (by simp)
    simp only [Byte.isLegal_eq, Bool.or_eq_true] at hb
    rcases hb with (hb | hb) | hb
    · exact ⟨ts, hts.cons_blank hb⟩
    · obtain ⟨o, ho⟩ := Option.isSome_iff_exists.1 hb
      rw [← Operator.ofByte?_eq_some_iff.1 ho]
      exact ⟨_, hts.cons_op o⟩
    · exact hts.exists_cons_digit hb

/-- A text has only legal bytes, or a first byte that is not legal. -/
theorem legal_or_first_illegal (s : List Byte) :
    (∀ b ∈ s, b.isLegal = true) ∨ ∃ front b behind, s = front ++ b :: behind ∧
      (∀ x ∈ front, x.isLegal = true) ∧ b.isLegal = false := by
  cases hfind : s.find? (!·.isLegal) with
  | none =>
    left
    simpa using List.find?_eq_none.1 hfind
  | some b =>
    right
    obtain ⟨hb, front, behind, hs, hfront⟩ := List.find?_eq_some_iff_append.1 hfind
    exact ⟨front, b, behind, hs, by simpa using hfront, by simpa using hb⟩

/-! ## Pieces -/

/-- A token as it stands in a text, with the gap before it. -/
structure Piece where
  gap : List Byte
  written : List Byte
  token : Token

/-- The bytes of a piece. -/
def Piece.bytes (p : Piece) : List Byte :=
  p.gap ++ p.written

/-- Pieces that may stand one behind the other, with a last gap behind them. -/
structure IsLayout (pieces : List Piece) (last : List Byte) : Prop where
  isGap : ∀ p ∈ pieces, IsGap p.gap
  writtenAs : ∀ p ∈ pieces, p.token.WrittenAs p.written
  /-- There are blanks between two adjacent literals. -/
  apart : pieces.IsChain fun p q => p.token.value?.isSome → q.token.value?.isSome → q.gap ≠ []
  isGap_last : IsGap last

theorem IsLayout.tail {p : Piece} {pieces : List Piece} {last : List Byte}
    (h : IsLayout (p :: pieces) last) : IsLayout pieces last where
  isGap q hq := h.isGap q (by simp [hq])
  writtenAs q hq := h.writtenAs q (by simp [hq])
  apart := h.apart.tail
  isGap_last := h.isGap_last

theorem IsGap.isDigit_of_head? {gap : List Byte} (h : IsGap gap) {b : Byte}
    (hb : gap.head? = some b) : b.isDigit = false :=
  Byte.isDigit_eq_false_of_isBlank (h.isBlank (List.mem_of_head? hb))

/-- Behind a literal, pieces do not start with a digit. -/
theorem IsLayout.isDigit_of_head? {p : Piece} {pieces : List Piece} {last : List Byte}
    (h : IsLayout (p :: pieces) last) (hlit : p.token.value?.isSome) {b : Byte}
    (hb : (pieces.flatMap Piece.bytes ++ last).head? = some b) : b.isDigit = false := by
  rcases pieces with _ | ⟨q, pieces⟩
  · exact h.isGap_last.isDigit_of_head? hb
  · have hq := h.tail.writtenAs q (by simp)
    have hgap := h.tail.isGap q (by simp)
    have hapart := (List.isChain_cons_cons.1 h.apart).1 hlit
    rcases q with ⟨_ | ⟨x, gap⟩, written, o | v⟩
    · obtain rfl : written = [o.byte] := hq
      obtain rfl : o.byte = b := by simpa [Piece.bytes] using hb
      exact o.isDigit_byte
    · exact absurd rfl (hapart rfl)
    · exact hgap.isDigit_of_head? (by simpa [Piece.bytes] using hb)
    · exact hgap.isDigit_of_head? (by simpa [Piece.bytes] using hb)

/-- The tokens of pieces are written by the bytes of the pieces, one behind the other. -/
theorem IsLayout.renders {pieces : List Piece} {last : List Byte} (h : IsLayout pieces last) :
    Renders (pieces.map Piece.token) (pieces.flatMap Piece.bytes ++ last) := by
  induction pieces with
  | nil => exact .nil h.isGap_last
  | cons p pieces ih =>
    have hcons := Renders.cons (h.isGap p (by simp)) (h.writtenAs p (by simp)) (ih h.tail)
      fun hlit b hb => h.isDigit_of_head? hlit hb
    simpa [Piece.bytes] using hcons

/-- A text that writes tokens is a list of pieces. -/
theorem Renders.exists_layout {ts : List Token} {s : List Byte} (h : Renders ts s) :
    ∃ pieces last, IsLayout pieces last ∧ ts = pieces.map Piece.token ∧
      s = pieces.flatMap Piece.bytes ++ last := by
  induction h with
  | @nil gap hgap =>
    exact ⟨[], gap, ⟨by simp, by simp, .nil, hgap⟩, rfl, rfl⟩
  | @cons gap written rest t ts hgap ht _ hsep ih =>
    obtain ⟨pieces, last, hlayout, rfl, rfl⟩ := ih
    refine ⟨⟨gap, written, t⟩ :: pieces, last, ⟨?_, ?_, ?_, hlayout.isGap_last⟩, rfl, ?_⟩
    · simpa using ⟨hgap, hlayout.isGap⟩
    · simpa using ⟨ht, hlayout.writtenAs⟩
    · -- without a gap, the digits of the next literal would come right behind this one
      refine List.isChain_cons.2 ⟨?_, hlayout.apart⟩
      rintro ⟨qgap, qwritten, o | v⟩ hq hlit hqlit rfl
      · contradiction
      · obtain ⟨qs, rfl⟩ := List.head?_eq_some_iff.1 hq
        obtain ⟨hne, hdigits, -⟩ :=
          Token.writtenAs_lit_iff.1 (hlayout.writtenAs _ (List.mem_cons_self ..))
        obtain ⟨d, ds, rfl⟩ := List.exists_cons_of_ne_nil hne
        have hd := hsep hlit d (by simp [Piece.bytes])
        rw [hdigits d (by simp)] at hd
        contradiction
    · simp [Piece.bytes]

/-- A text writes tokens exactly if it can be laid out in pieces. -/
theorem renders_iff_layout {ts : List Token} {s : List Byte} :
    Renders ts s ↔ ∃ pieces last, IsLayout pieces last ∧ ts = pieces.map Piece.token ∧
      s = pieces.flatMap Piece.bytes ++ last := by
  constructor
  · exact Renders.exists_layout
  · rintro ⟨pieces, last, h, rfl, rfl⟩
    exact h.renders

/-! ## The last digits -/

theorem endsInDigit_append_digits (front : List Byte) {digits : List Byte} (hne : digits ≠ [])
    (hdigits : ∀ d ∈ digits, d.isDigit = true) : endsInDigit (front ++ digits) = true := by
  rw [endsInDigit_append front hne, (Token.writtenAs_wrapped hne hdigits).endsInDigit_eq]
  rfl

/-- The digits at the end of a text can be cut off, so that what is left does not end in a digit. -/
theorem exists_trailing_digits (s : List Byte) :
    ∃ front digits, s = front ++ digits ∧ endsInDigit front = false ∧
      ∀ d ∈ digits, d.isDigit = true := by
  induction s using List.reverseRecOn with
  | nil => exact ⟨[], [], rfl, rfl, by simp⟩
  | append_singleton s b ih =>
    by_cases hb : b.isDigit = true
    · obtain ⟨front, digits, rfl, hfront, hdigits⟩ := ih
      refine ⟨front, digits ++ [b], by simp, hfront, ?_⟩
      intro d hd
      rcases List.mem_append.1 hd with hd | hd
      · exact hdigits d hd
      · rw [List.mem_singleton.1 hd, hb]
    · refine ⟨s ++ [b], [], by simp, ?_, by simp⟩
      rw [endsInDigit_append s (List.cons_ne_nil b [])]
      simpa [endsInDigit] using hb

end ArithLex
