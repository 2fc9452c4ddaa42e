import ArithLex.Proofs.Delivery
import ArithLex.Proofs.Segments

/-!
# One scan from any state

What a scan finds is settled by the bytes ahead: the pending byte, if there is one, and the bytes up
to the next barrier, which is an end of input or a failure. It does not matter which of them is
pending (`Cursor.exists_nextToken_eq_lexemes`). The scan passes over the blanks in front and takes
one lexeme. It reads one byte further only where digits are followed by a byte, which is handed
back, and it meets the barrier only where blanks or digits reach up to it.

The main result is `Session.advance_lexeme`.
-/

namespace ArithLex

/-! ## Bytes ahead -/

namespace Signal

/-- The bytes that reads deliver before they meet a barrier. -/
def bytesAhead : List Signal → List Byte
  | [] => []
  | .byte b :: rest => b :: bytesAhead rest
  | .finish :: _ => []
  | .failure _ _ :: _ => []

/-- The signals from the next barrier on. -/
def fromBarrier : List Signal → List Signal
  | [] => []
  | .byte _ :: rest => fromBarrier rest
  | .finish :: rest => .finish :: rest
  | .failure e h :: rest => .failure e h :: rest

theorem bytesAhead_append_fromBarrier (signals : List Signal) :
    (bytesAhead signals).map .byte ++ fromBarrier signals = signals := by
  induction signals with
  | nil => rfl
  | cons x signals ih =>
    cases x with
    | byte b => rw [bytesAhead, fromBarrier, List.map_cons, List.cons_append, ih]
    | finish => rfl
    | failure e h => rfl

theorem fromBarrier_cases (signals : List Signal) :
    fromBarrier signals = [] ∨ (∃ rest, fromBarrier signals = .finish :: rest) ∨
      ∃ e h rest, fromBarrier signals = .failure e h :: rest := by
  induction signals with
  | nil => exact .inl rfl
  | cons x signals ih =>
    cases x with
    | byte b => exact ih
    | finish => exact .inr (.inl ⟨signals, rfl⟩)
    | failure e h => exact .inr (.inr ⟨e, h, signals, rfl⟩)

end Signal

namespace Barrier

/-- The barrier that signals start with. Where there are none, every read meets the end of the
input. -/
def ofSignals : List Signal → Barrier
  | [] => finish
  | .byte _ :: _ => finish
  | .finish :: _ => finish
  | .failure e h :: _ => failure e h

/-- What a scan gives that has found something when it meets a barrier. A failure takes the place of
what was found. -/
def settle (name : String) (found : Pull Token) : Barrier → Pull Token
  | finish => found
  | failure e _ => .fault (.cannotRead name e)

end Barrier

namespace Cursor

/-- The bytes that are read before a barrier is met, the pending byte first. -/
def bytesAhead (c : Cursor) : List Byte :=
  c.pending.toList ++ Signal.bytesAhead c.rest.signals

/-- The bytes ahead without the blanks in front. -/
def lexemes (c : Cursor) : List Byte :=
  c.bytesAhead.dropWhile Byte.isBlank

/-! ## Scans of what is ahead -/

/-- The blanks ahead only move the line, and a pending byte is scanned like any other. -/
theorem exists_nextToken_eq_lexemes (c : Cursor) :
    ∃ line, c.unchunked.nextToken = (facing c.name line
      (c.lexemes.map .byte ++ Signal.fromBarrier c.rest.signals)).nextToken := by
  obtain ⟨name, pending, line, rest⟩ := c
  generalize hsignals : rest.signals = signals
  have hfacing : ∃ line', (facing name line signals).nextToken = (facing name line'
      (((Signal.bytesAhead signals).dropWhile Byte.isBlank).map .byte ++
        Signal.fromBarrier signals)).nextToken := by
    have hsplit : signals = ((Signal.bytesAhead signals).takeWhile Byte.isBlank).map .byte ++
        (((Signal.bytesAhead signals).dropWhile Byte.isBlank).map .byte ++
          Signal.fromBarrier signals) := by
      rw [← List.append_assoc, ← List.map_append, List.takeWhile_append_dropWhile,
        Signal.bytesAhead_append_fromBarrier]
    have hgap : IsGap ((Signal.bytesAhead signals).takeWhile Byte.isBlank) :=
      isGap_iff.2 fun b hb => List.mem_takeWhile_imp hb
    refine ⟨lineBehind line ((Signal.bytesAhead signals).takeWhile Byte.isBlank), ?_⟩
    rw [← nextToken_gap name line hgap, ← hsplit]
  rcases pending with _ | b
  · have hahead : lexemes ⟨name, none, line, rest⟩ =
        (Signal.bytesAhead signals).dropWhile Byte.isBlank := by
      rw [← hsignals]
      rfl
    simpa only [hahead, unchunked, hsignals] using hfacing
  · have hahead : lexemes ⟨name, some b, line, rest⟩ =
        (b :: Signal.bytesAhead signals).dropWhile Byte.isBlank := by
      rw [← hsignals]
      rfl
    simp only [hahead, unchunked, hsignals]
    cases hb : b.isBlank with
    | true =>
      rw [List.dropWhile_cons_of_pos hb, nextToken_eq, read_pending]
      simpa only [hb, if_true] using hfacing
    | false =>
      -- a byte that is no blank is no line feed either, so that it may as well be unread
      have hline : lineAfter line b = line :=
        lineAfter_of_ne (Byte.ne_newline_of_not_isBlank hb) line
      have hscan := nextToken_unread name b line signals
      rw [hline] at hscan
      refine ⟨line, ?_⟩
      rw [List.dropWhile_cons_of_neg (by simp [hb]), List.map_cons, List.cons_append,
        Signal.bytesAhead_append_fromBarrier, hscan]

/-- The first byte that is no blank is an operator or illegal, if it is no digit. -/
theorem nextToken_cons_of_not_isDigit (name : String) (line : UInt32) {b : Byte}
    (hblank : b.isBlank = false) (hdigit : b.isDigit = false) (rest : List Signal) :
    (facing name line (.byte b :: rest)).nextToken =
      (match Operator.ofByte? b with
        | some o => .item (.op o)
        | none => .fault (.illegalByte b ⟨line, name⟩),
      facing name line rest) := by
  rcases hop : Operator.ofByte? b with _ | o
  · have hillegal : b.isLegal = false := by simp [Byte.isLegal_eq, hblank, hop, hdigit]
    rw [nextToken_illegal name line hillegal]
  · obtain rfl := Operator.ofByte?_eq_some_iff.1 hop
    rw [nextToken_op]

/-- Digits that a byte follows are a literal, and that byte is handed back. -/
theorem nextToken_digits_byte (name : String) (line : UInt32) {digits : List Byte}
    (hne : digits ≠ []) (hdigits : ∀ d ∈ digits, d.isDigit = true) {b : Byte}
    (hb : b.isDigit = false) (rest : List Signal) :
    (facing name line (digits.map .byte ++ .byte b :: rest)).nextToken =
      (.item (.lit (Numeral.wrapped digits)),
        ⟨name, some b, lineAfter line b, Script.unchunked rest⟩) :=
  nextToken_digits name line hne hdigits (by simpa using hb)

/-- A scan that meets a barrier before any lexeme. -/
theorem nextToken_fromBarrier (name : String) (line : UInt32) (signals : List Signal) :
    (facing name line (Signal.fromBarrier signals)).nextToken =
      ((Barrier.ofSignals (Signal.fromBarrier signals)).settle name .ended,
        facing name line (Signal.fromBarrier signals).tail) := by
  rcases Signal.fromBarrier_cases signals with h | ⟨rest, h⟩ | ⟨e, he, rest, h⟩
  · rw [h, nextToken_nil]
    rfl
  · rw [h, nextToken_finish]
    rfl
  · rw [h, nextToken_failure]
    rfl

/-- A scan that meets a barrier right behind digits. -/
theorem nextToken_digits_fromBarrier (name : String) (line : UInt32) {digits : List Byte}
    (hne : digits ≠ []) (hdigits : ∀ d ∈ digits, d.isDigit = true) (signals : List Signal) :
    (facing name line (digits.map .byte ++ Signal.fromBarrier signals)).nextToken =
      ((Barrier.ofSignals (Signal.fromBarrier signals)).settle name
          (.item (.lit (Numeral.wrapped digits))),
        facing name line (Signal.fromBarrier signals).tail) := by
  rcases Signal.fromBarrier_cases signals with h | ⟨rest, h⟩ | ⟨e, he, rest, h⟩
  · rw [h]
    exact nextToken_digits name line hne hdigits (by simp)
  · rw [h, nextToken_digits_finish name line hne hdigits]
    rfl
  · rw [h, nextToken_digits_failure name line hne hdigits]
    rfl

/-- The ways in which a scan can go, with what it gives and leaves in each of them. Which way it is
is settled by the lexemes ahead. -/
inductive Takes (c : Cursor) : Pull Token × Cursor → Prop where
  /-- Nothing but blanks is left before the barrier. -/
  | nothing (line : UInt32) (h : c.lexemes = []) :
      Takes c ((Barrier.ofSignals (Signal.fromBarrier c.rest.signals)).settle c.name .ended,
        facing c.name line (Signal.fromBarrier c.rest.signals).tail)
  /-- An operator or an illegal byte. -/
  | single {b : Byte} {after : List Byte} (line : UInt32) (h : c.lexemes = b :: after)
      (hblank : b.isBlank = false) (hdigit : b.isDigit = false) :
      Takes c (match Operator.ofByte? b with
          | some o => .item (.op o)
          | none => .fault (.illegalByte b ⟨line, c.name⟩),
        facing c.name line (after.map .byte ++ Signal.fromBarrier c.rest.signals))
  /-- Digits in front of a byte. -/
  | digitsByte {digits after : List Byte} {b : Byte} (line : UInt32)
      (h : c.lexemes = digits ++ b :: after) (hne : digits ≠ [])
      (hdigits : ∀ d ∈ digits, d.isDigit = true) (hb : b.isDigit = false) :
      Takes c (.item (.lit (Numeral.wrapped digits)),
        ⟨c.name, some b, line,
          Script.unchunked (after.map .byte ++ Signal.fromBarrier c.rest.signals)⟩)
  /-- Digits up to the barrier. -/
  | digitsBarrier {digits : List Byte} (line : UInt32) (h : c.lexemes = digits) (hne : digits ≠ [])
      (hdigits : ∀ d ∈ digits, d.isDigit = true) :
      Takes c ((Barrier.ofSignals (Signal.fromBarrier c.rest.signals)).settle c.name
          (.item (.lit (Numeral.wrapped digits))),
        facing c.name line (Signal.fromBarrier c.rest.signals).tail)

/-- Every scan goes in one of these ways. -/
theorem takes_nextToken (c : Cursor) : c.Takes c.unchunked.nextToken := by
  obtain ⟨line, hscan⟩ := c.exists_nextToken_eq_lexemes
  cases hlex : c.lexemes with
  | nil =>
    rw [hlex, List.map_nil, List.nil_append, nextToken_fromBarrier] at hscan
    rw [hscan]
    exact .nothing line hlex
  | cons b after =>
    have hblank : b.isBlank = false := Byte.eq_false_of_dropWhile hlex
    cases hb : b.isDigit with
    | false =>
      rw [hlex, List.map_cons, List.cons_append,
        nextToken_cons_of_not_isDigit c.name line hblank hb] at hscan
      rw [hscan]
      exact .single line hlex hblank hb
    | true =>
      -- the digits are followed by a byte or by the barrier
      have hne : c.lexemes.takeWhile Byte.isDigit ≠ [] := by simp [hlex, hb]
      have hdigits : ∀ d ∈ c.lexemes.takeWhile Byte.isDigit, d.isDigit = true :=
        fun d hd => List.mem_takeWhile_imp hd
      have hsplit : c.lexemes = c.lexemes.takeWhile Byte.isDigit ++
          c.lexemes.dropWhile Byte.isDigit := List.takeWhile_append_dropWhile.symm
      cases hdrop : c.lexemes.dropWhile Byte.isDigit with
      | nil =>
        rw [hdrop, List.append_nil] at hsplit
        rw [hsplit, nextToken_digits_fromBarrier c.name line hne hdigits] at hscan
        rw [hscan]
        exact .digitsBarrier line hsplit hne hdigits
      | cons x behind =>
        have hx : x.isDigit = false := Byte.eq_false_of_dropWhile hdrop
        rw [hdrop] at hsplit
        rw [hsplit, List.map_append, List.map_cons, List.append_assoc, List.cons_append,
          nextToken_digits_byte c.name line hne hdigits hx] at hscan
        rw [hscan]
        exact .digitsByte _ hsplit hne hdigits hx

end Cursor

/-! ## One scan of a session -/

/-- The current token is the one that the scan has found, or else it stays. -/
theorem Session.current_advance (s : Session) :
    s.advance.2.current = match s.advance.1 with
      | .item t => some t
      | .ended => s.current
      | .fault _ => s.current := by
  rcases h : s.advance with ⟨t | _ | f, s'⟩
  · have hitem := current_advance_of_item (congrArg Prod.fst h)
    rwa [h] at hitem
  · have hsame := current_advance_of_not_item (s := s) (by simp [h])
    rwa [h] at hsame
  · have hsame := current_advance_of_not_item (s := s) (by simp [h])
    rwa [h] at hsame

/-- What one scan does, from any state. Where only blanks are left before the barrier, it uses the
barrier up. An operator or an illegal byte is taken by itself. A run of digits is taken whole, with
its number modulo 2^64 for its value; the byte that follows it is pending then, and if none does,
the barrier is used up. The reader has delivered the signals in between, and their line feeds alone
have been counted. The current token is the one that was found, or else the one from before. -/
theorem Session.advance_lexeme (s : Session) :
    let c := s.cursor
    let found := s.advance.1
    let d := s.advance.2.cursor
    let behind := Signal.fromBarrier c.rest.signals
    let barrier := Barrier.ofSignals behind
    let digits := c.lexemes.takeWhile Byte.isDigit
    let literal := Pull.item (.lit (Int64.ofNat (Numeral.toNat digits)))
    (c.lexemes = [] →
      found = barrier.settle c.name .ended ∧ d.pending = none ∧ d.rest.signals = behind.tail) ∧
    (∀ b after, c.lexemes = b :: after → b.isDigit = false →
      found = (match Operator.ofByte? b with
        | some o => .item (.op o)
        | none => .fault (.illegalByte b ⟨d.line, c.name⟩)) ∧
      d.pending = none ∧ d.rest.signals = after.map .byte ++ behind) ∧
    (digits ≠ [] →
      (∀ b after, c.lexemes.dropWhile Byte.isDigit = b :: after →
        found = literal ∧ d.pending = some b ∧ d.rest.signals = after.map .byte ++ behind) ∧
      (c.lexemes.dropWhile Byte.isDigit = [] →
        found = barrier.settle c.name literal ∧ d.pending = none ∧ d.rest.signals = behind.tail)) ∧
    c.ReadsTo d ∧
    s.advance.2.current = match found with
      | .item t => some t
      | .ended => s.current
      | .fault _ => s.current := by
  intro c found d behind barrier digits literal
  obtain ⟨line, hscan⟩ := c.exists_nextToken_eq_lexemes
  -- what is found and what is left of the signals can be seen on the cursor taken apart
  have hresult : found = c.unchunked.nextToken.1 := by
    rw [c.nextToken_unchunked]
    exact s.fst_advance
  have hleft : d.unchunked = c.unchunked.nextToken.2 := by
    rw [c.nextToken_unchunked]
    exact congrArg Cursor.unchunked s.cursor_advance
  have hpending : d.pending = c.unchunked.nextToken.2.pending := by rw [← hleft, Cursor.unchunked]
  have hline : d.line = c.unchunked.nextToken.2.line := by rw [← hleft, Cursor.unchunked]
  have hrest : d.rest.signals = c.unchunked.nextToken.2.rest.signals := by
    rw [← hleft, Cursor.unchunked, Script.signals_unchunked]
  have hliteral : literal = .item (.lit (Numeral.wrapped digits)) := by
    rw [Numeral.wrapped_eq]
  have hdigits : ∀ x ∈ digits, x.isDigit = true := fun x hx => List.mem_takeWhile_imp hx
  have hsplit : c.lexemes = digits ++ c.lexemes.dropWhile Byte.isDigit :=
    List.takeWhile_append_dropWhile.symm
  refine ⟨?_, ?_, ?_, s.readsTo_advance, s.current_advance⟩
  · intro hnil
    rw [hnil, List.map_nil, List.nil_append, Cursor.nextToken_fromBarrier] at hscan
    rw [hresult, hpending, hrest, hscan]
    exact ⟨rfl, rfl, Script.signals_unchunked _⟩
  · intro b after hcons hb
    have hblank : b.isBlank = false := Byte.eq_false_of_dropWhile hcons
    rw [hcons, List.map_cons, List.cons_append,
      Cursor.nextToken_cons_of_not_isDigit c.name line hblank hb] at hscan
    rw [hresult, hpending, hline, hrest, hscan]
    exact ⟨rfl, rfl, Script.signals_unchunked _⟩
  · intro hne
    rw [hliteral]
    constructor
    · intro b after hcons
      have hb : b.isDigit = false := Byte.eq_false_of_dropWhile hcons
      rw [hsplit, hcons, List.map_append, List.map_cons, List.append_assoc, List.cons_append,
        Cursor.nextToken_digits_byte c.name line hne hdigits hb] at hscan
      rw [hresult, hpending, hrest, hscan]
      exact ⟨rfl, rfl, Script.signals_unchunked _⟩
    · intro hnil
      rw [hsplit, hnil, List.append_nil,
        Cursor.nextToken_digits_fromBarrier c.name line hne hdigits] at hscan
      rw [hresult, hpending, hrest, hscan]
      exact ⟨rfl, rfl, Script.signals_unchunked _⟩

-- A line feed was handed back: it is passed over without being counted, and the one that ends the
-- literal is counted and pending. A chunk border and an interrupted read inside the literal leave
-- no trace.
example : (Session.begin ⟨"input", some Byte.newline, 1,
      [.data (utf8 " 1"), .failure ⟨.interrupted, ""⟩, .data (utf8 "2\n+"), .finish]⟩).advance =
    (.item (.lit 12),
      ⟨⟨"input", some Byte.newline, 2, [.data (utf8 "+"), .finish]⟩, some (.lit 12)⟩) := by
  cbv

end ArithLex
