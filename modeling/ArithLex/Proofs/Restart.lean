import Mathlib.Logic.Function.Iterate
import ArithLex.Proofs.Concatenation
import ArithLex.Proofs.OneScan

/-!
# Beginning a new text between two scans

A session on the bytes of a text may be told to begin a new text where it stands. What is left of
the old text is then the new one, but for a byte that is pending. Between two scans a byte is
pending only behind a literal (`Cursor.Left`), and it is lost, since the line feed of the new text
takes its place. `Spent s results q` says in terms of the text alone what some scans of `s` have
used: the lexemes and illegal bytes that their results tell of, with `q` behind the last of them.

The main result is `Session.restart_advances`, for every text and every number of scans.
-/

namespace ArithLex

/-! ## What scans have used of a text -/

/-- The text begins with what the results tell of: written tokens and illegal bytes, with gaps in
front of them. The last list is what stands behind the last of these. A scan that meets the end of
the text has used the gap in front of the end. -/
inductive Spent : List Byte → List (Pull Token) → List Byte → Prop where
  | nothing (s : List Byte) : Spent s [] s
  | token {gap written rest q : List Byte} {t : Token} {results : List (Pull Token)}
      (hgap : IsGap gap) (ht : t.WrittenAs written)
      (hend : t.value?.isSome → startsWithDigit rest = false) (hrest : Spent rest results q) :
      Spent (gap ++ written ++ rest) (.item t :: results) q
  | illegal {gap rest q : List Byte} {b : Byte} {results : List (Pull Token)} (hgap : IsGap gap)
      (hb : b.isLegal = false) (place : Position) (hrest : Spent rest results q) :
      Spent (gap ++ b :: rest) (.fault (.illegalByte b place) :: results) q
  | ended {gap q : List Byte} {results : List (Pull Token)} (hgap : IsGap gap)
      (hrest : Spent [] results q) : Spent gap (.ended :: results) q

theorem Spent.trans {s q q' : List Byte} {results results' : List (Pull Token)}
    (h : Spent s results q) (h' : Spent q results' q') : Spent s (results ++ results') q' := by
  induction h with
  | nothing => exact h'
  | token hgap ht hend _ ih => exact .token hgap ht hend (ih h')
  | illegal hgap hb place _ ih => exact .illegal hgap hb place (ih h')
  | ended hgap _ ih => exact .ended hgap (ih h')

/-- What stands behind the first lexeme or illegal byte of a text. -/
def behindLexeme (s : List Byte) : List Byte :=
  let lexemes := s.dropWhile Byte.isBlank
  if startsWithDigit lexemes then lexemes.dropWhile Byte.isDigit else lexemes.tail

theorem dropWhile_isBlank_append {gap : List Byte} (hgap : IsGap gap) {b : Byte}
    (hb : b.isBlank = false) (rest : List Byte) :
    (gap ++ b :: rest).dropWhile Byte.isBlank = b :: rest := by
  rw [List.dropWhile_append_of_pos fun b hb => hgap.isBlank hb,
    List.dropWhile_cons_of_neg (by simp [hb])]

theorem dropWhile_isDigit_append {digits rest : List Byte}
    (hdigits : ∀ d ∈ digits, d.isDigit = true) (hrest : startsWithDigit rest = false) :
    (digits ++ rest).dropWhile Byte.isDigit = rest := by
  rw [List.dropWhile_append_of_pos hdigits]
  rcases rest with _ | ⟨b, rest⟩
  · rfl
  · exact List.dropWhile_cons_of_neg (by simpa [startsWithDigit] using hrest)

theorem behindLexeme_gap {gap : List Byte} (hgap : IsGap gap) : behindLexeme gap = [] := by
  have hdrop : gap.dropWhile Byte.isBlank = [] :=
    List.dropWhile_eq_nil_iff.2 fun b hb => hgap.isBlank hb
  simp [behindLexeme, hdrop, startsWithDigit]

theorem behindLexeme_illegal {gap : List Byte} (hgap : IsGap gap) {b : Byte}
    (hb : b.isLegal = false) (rest : List Byte) : behindLexeme (gap ++ b :: rest) = rest := by
  simp only [Byte.isLegal_eq, Bool.or_eq_false_iff] at hb
  obtain ⟨⟨hblank, -⟩, hdigit⟩ := hb
  simp [behindLexeme, dropWhile_isBlank_append hgap hblank, startsWithDigit, hdigit]

theorem behindLexeme_token {gap written rest : List Byte} {t : Token} (hgap : IsGap gap)
    (ht : t.WrittenAs written) (hend : t.value?.isSome → startsWithDigit rest = false) :
    behindLexeme (gap ++ written ++ rest) = rest := by
  cases t with
  | op o =>
    obtain rfl : written = [o.byte] := ht
    rw [List.append_assoc, List.singleton_append]
    simp [behindLexeme, dropWhile_isBlank_append hgap o.isBlank_byte, startsWithDigit]
  | lit v =>
    obtain ⟨hne, hdigits, -⟩ := Token.writtenAs_lit_iff.1 ht
    have hdrop := dropWhile_isDigit_append hdigits (hend rfl)
    obtain ⟨d, ds, rfl⟩ := List.exists_cons_of_ne_nil hne
    have hd : d.isDigit = true := hdigits d (by simp)
    rw [List.append_assoc, List.cons_append]
    rw [List.cons_append] at hdrop
    simp [behindLexeme, dropWhile_isBlank_append hgap (Byte.isBlank_eq_false_of_isDigit hd),
      startsWithDigit, hd, hdrop]

/-- What some scans leave of a text is settled by their number. -/
theorem Spent.eq_iterate {s q : List Byte} {results : List (Pull Token)}
    (h : Spent s results q) : q = behindLexeme^[results.length] s := by
  induction h with
  | nothing => rfl
  | token hgap ht hend _ ih =>
    rw [List.length_cons, Function.iterate_succ_apply, behindLexeme_token hgap ht hend]
    exact ih
  | illegal hgap hb place _ ih =>
    rw [List.length_cons, Function.iterate_succ_apply, behindLexeme_illegal hgap hb]
    exact ih
  | ended hgap _ ih =>
    rw [List.length_cons, Function.iterate_succ_apply, behindLexeme_gap hgap]
    exact ih

/-- Behind the end of the text nothing is left. -/
theorem Spent.eq_nil_of_mem {s q : List Byte} {results : List (Pull Token)}
    (h : Spent s results q) (hended : s = [] ∨ .ended ∈ results) : q = [] := by
  induction h with
  | nothing => simpa using hended
  | token hgap ht hend _ ih =>
    have hne := ht.ne_nil
    exact ih (.inr (by simpa [hne] using hended))
  | illegal hgap hb place _ ih => exact ih (.inr (by simpa using hended))
  | ended hgap _ ih => exact ih (.inl rfl)

/-! ## Cursors on texts -/

/-- The value of the literal that a scan has found. -/
def Pull.value? : Pull Token → Option Int64
  | item t => t.value?
  | ended => none
  | fault _ => none

namespace Cursor

/-- What is to come are the given bytes, the pending byte first, and then the end of the script. -/
structure Holds (c : Cursor) (u : List Byte) : Prop where
  bytesAhead : c.bytesAhead = u
  rest : ∃ v, c.rest = .ofBytes v

/-- What a scan of a text leaves that has given `r`. A byte is pending exactly if the scan has found
a literal and there is a byte behind it. -/
inductive Left (name : String) : Pull Token → List Byte → Cursor → Prop where
  | ahead {r : Pull Token} {q : List Byte} (line : UInt32) (h : r.value?.isSome → q = []) :
      Left name r q ⟨name, none, line, .ofBytes q⟩
  | pending {v : Int64} {b : Byte} (after : List Byte) (line : UInt32) (hb : b.isDigit = false) :
      Left name (.item (.lit v)) (b :: after) ⟨name, some b, line, .ofBytes after⟩

theorem bytesAhead_map_byte (u : List Byte) : Signal.bytesAhead (u.map .byte) = u := by
  induction u with
  | nil => rfl
  | cons b u ih => rw [List.map_cons, Signal.bytesAhead, ih]

theorem fromBarrier_map_byte (u : List Byte) : Signal.fromBarrier (u.map .byte) = [] := by
  induction u with
  | nil => rfl
  | cons b u ih => rw [List.map_cons, Signal.fromBarrier, ih]

theorem holds_ofBytes (name : String) (pending : Option Byte) (line : UInt32) (u : List Byte) :
    Holds ⟨name, pending, line, .ofBytes u⟩ (pending.toList ++ u) where
  bytesAhead := by rw [Cursor.bytesAhead, Script.signals_ofBytes, bytesAhead_map_byte]
  rest := ⟨u, rfl⟩

variable {name : String} {r : Pull Token} {u q : List Byte} {c d : Cursor}

theorem Left.holds (h : Left name r q d) : d.Holds q := by
  cases h with
  | ahead line h => exact holds_ofBytes name none line q
  | @pending v b after line hb => exact holds_ofBytes name (some b) line after

theorem Left.name_eq (h : Left name r q d) : d.name = name := by
  cases h with
  | ahead line h => rfl
  | pending after line hb => rfl

/-- Scans leave the end of a text as one chunk. -/
theorem exists_rest_nextToken (h : ∃ v, c.rest = .ofBytes v) :
    ∃ v, c.nextToken.2.rest = .ofBytes v := by
  refine nextToken_keeps (P := fun d => ∃ v, d.rest = .ofBytes v) ?_ (fun d b hd => hd) h
  rintro ⟨name, pending, line, rest⟩ ⟨v, rfl⟩
  rcases pending with _ | b
  · rcases v with _ | ⟨b, v⟩
    · exact ⟨[], rfl⟩
    · exact ⟨v, rfl⟩
  · exact ⟨v, rfl⟩

/-- In one chunk, bytes can be told from their signals. -/
theorem eq_of_unchunked {pending : Option Byte} {line : UInt32} {signals : List Signal}
    (hrest : ∃ v, d.rest = .ofBytes v)
    (h : d.unchunked = ⟨name, pending, line, Script.unchunked signals⟩)
    (hq : signals = q.map .byte) : d = ⟨name, pending, line, .ofBytes q⟩ := by
  obtain ⟨dname, dpending, dline, rest⟩ := d
  obtain ⟨v, rfl⟩ : ∃ v, rest = .ofBytes v := hrest
  simp only [unchunked, Script.signals_ofBytes, mk.injEq] at h
  obtain ⟨rfl, rfl, rfl, hsignals⟩ := h
  have hbytes : v.map Signal.byte = q.map Signal.byte := by
    have hcongr := congrArg Script.signals hsignals
    rwa [Script.signals_unchunked, Script.signals_unchunked, hq] at hcongr
  have hinjective : Function.Injective Signal.byte := fun a b hab => Signal.byte.inj hab
  rw [List.map_injective_iff.2 hinjective hbytes]

/-- A scan of a text uses a gap and what follows it, and leaves what stands behind. -/
theorem exists_spent_nextToken (h : c.Holds u) :
    ∃ q, Spent u [c.nextToken.1] q ∧ Left c.name c.nextToken.1 q c.nextToken.2 := by
  have hgap : IsGap (u.takeWhile Byte.isBlank) := isGap_iff.2 fun b hb => List.mem_takeWhile_imp hb
  have hsplit : u = u.takeWhile Byte.isBlank ++ c.lexemes := by
    rw [lexemes, h.bytesAhead, List.takeWhile_append_dropWhile]
  have hbehind : Signal.fromBarrier c.rest.signals = [] := by
    obtain ⟨v, hv⟩ := h.rest
    rw [hv, Script.signals_ofBytes, fromBarrier_map_byte]
  have hrest := exists_rest_nextToken h.rest
  -- the ways a scan can go speak of the cursor taken apart
  have htakes := c.takes_nextToken
  rw [c.nextToken_unchunked] at htakes
  generalize c.nextToken = scan at htakes hrest ⊢
  obtain ⟨r, d⟩ := scan
  simp only at htakes hrest ⊢
  generalize hd : d.unchunked = left at htakes
  cases htakes with
  | nothing line hnil =>
    rw [hnil, List.append_nil] at hsplit
    rw [hbehind] at hd ⊢
    rw [eq_of_unchunked (q := []) hrest hd rfl]
    exact ⟨[], .ended (hsplit ▸ hgap) (.nothing []), .ahead line (fun _ => rfl)⟩
  | @single b after line hcons hblank hdigit =>
    rw [hcons] at hsplit
    rw [eq_of_unchunked (q := after) hrest hd (by rw [hbehind, List.append_nil]), hsplit]
    refine ⟨after, ?_, .ahead line ?_⟩
    · cases hop : Operator.ofByte? b with
      | some o =>
        have hwritten : (Token.op o).WrittenAs [b] := by
          rw [← Operator.ofByte?_eq_some_iff.1 hop]
          rfl
        rw [List.append_cons]
        exact .token hgap hwritten (by simp [Token.value?]) (.nothing after)
      | none =>
        have hillegal : b.isLegal = false := by simp [Byte.isLegal_eq, hblank, hop, hdigit]
        exact .illegal hgap hillegal _ (.nothing after)
    · cases Operator.ofByte? b with
      | some o => simp [Pull.value?, Token.value?]
      | none => simp [Pull.value?]
  | @digitsByte digits after b line hdigitsByte hne hdigits hb =>
    -- the byte behind the literal is pending
    rw [hdigitsByte, ← List.append_assoc] at hsplit
    rw [eq_of_unchunked (q := after) hrest hd (by rw [hbehind, List.append_nil]), hsplit]
    exact ⟨b :: after, .token hgap (Token.writtenAs_wrapped hne hdigits) (fun _ => hb)
      (.nothing _), .pending after line hb⟩
  | @digitsBarrier digits line hlit hne hdigits =>
    rw [hlit, ← List.append_nil (_ ++ digits)] at hsplit
    rw [hbehind] at hd ⊢
    rw [eq_of_unchunked (q := []) hrest hd rfl, hsplit]
    exact ⟨[], .token hgap (Token.writtenAs_wrapped hne hdigits) (fun _ => rfl) (.nothing []),
      .ahead line (fun _ => rfl)⟩

end Cursor

/-! ## Sessions on texts -/

namespace Session

/-- A new session on the bytes of a text. -/
def ofText (name : String) (text : List Byte) : Session :=
  begin (.ofScript name (.ofBytes text))

/-- Scans of a text use what their results tell of, and the last of them settles what is left. -/
theorem exists_spent_advances {s : Session} {u : List Byte} (h : s.cursor.Holds u) (n : Nat) :
    ∃ q last, Spent u (s.advances (n + 1)).1 q ∧ (s.advances (n + 1)).1.getLast? = some last ∧
      Cursor.Left s.cursor.name last q (s.advances (n + 1)).2.cursor := by
  induction n generalizing s u with
  | zero =>
    obtain ⟨q, hspent, hleft⟩ := Cursor.exists_spent_nextToken h
    rw [← fst_advance] at hspent hleft
    rw [← cursor_advance] at hleft
    exact ⟨q, s.advance.1, hspent, rfl, hleft⟩
  | succ n ih =>
    obtain ⟨q', hspent', hleft'⟩ := Cursor.exists_spent_nextToken h
    rw [← fst_advance] at hspent' hleft'
    rw [← cursor_advance] at hleft'
    obtain ⟨q, last, hspent, hlast, hleft⟩ := ih hleft'.holds
    rw [hleft'.name_eq] at hleft
    refine ⟨q, last, hspent'.trans hspent, ?_, hleft⟩
    rw [advances, List.getLast?_cons, hlast]
    rfl

/-- Scans depend on a session only through its first scan and its current token. -/
theorem advances_congr {s s' : Session} (h : s.cursor.nextToken = s'.cursor.nextToken)
    (hcurrent : s.current = s'.current) (n : Nat) : s.advances (n + 1) = s'.advances (n + 1) := by
  rw [advances, advances, advance_congr h hcurrent]

/-- A new text begins with what is left of the old one, but for the byte that is pending. -/
theorem restart_of_left {s : Session} {name : String} {last : Pull Token} {q : List Byte}
    (h : Cursor.Left name last q s.cursor) :
    s.restart = ofText name (if last.value?.isSome then q.tail else q) := by
  have hbegin (pending : Option Byte) (line : UInt32) (u : List Byte) :
      Cursor.beginText ⟨name, pending, line, .ofBytes u⟩ = .ofScript name (.ofBytes u) := rfl
  obtain ⟨c, current⟩ := s
  cases h with
  | ahead line h =>
    have hkept : (if last.value?.isSome then q.tail else q) = q := by
      split
      · rw [h ‹_›, List.tail_nil]
      · rfl
    rw [hkept, restart, hbegin, ofText]
  | pending after line hb =>
    rw [restart, hbegin]
    rfl

/-- What is left behind a scan that has found a literal does not start with a digit. -/
theorem not_startsWithDigit_of_left {name : String} {v : Int64} {q : List Byte} {d : Cursor}
    (h : Cursor.Left name (.item (.lit v)) q d) : startsWithDigit q = false := by
  cases h with
  | ahead line h =>
    rw [h rfl]
    rfl
  | pending after line hb => exact hb

/-- A session on a text that begins a new text is a new session on what its scans have left, or on
what stands one byte further on if the last scan has found a literal. -/
theorem exists_restart_advances (name : String) (s : List Byte) (k : Nat) :
    let results := ((ofText name s).advances k).1
    let restarted := ((ofText name s).advances k).2.restart
    ∃ q, Spent s results q ∧
      (∀ v, results.getLast? = some (.item (.lit v)) →
        startsWithDigit q = false ∧ restarted = ofText name q.tail) ∧
      ((∀ v, results.getLast? ≠ some (.item (.lit v))) → restarted = ofText name q) := by
  intro results restarted
  cases k with
  | zero => exact ⟨s, .nothing s, by simp [results, advances], fun _ => rfl⟩
  | succ n =>
    -- the line feed that is pending at first is passed over
    have hpassed : (ofText name s).advances (n + 1) =
        (begin ⟨name, none, 1, .ofBytes s⟩).advances (n + 1) := by
      apply advances_congr
      · rw [ofText, begin, Cursor.nextToken_eq]
        rfl
      · rfl
    obtain ⟨q, last, hspent, hlast, hleft⟩ :=
      exists_spent_advances (s := begin ⟨name, none, 1, .ofBytes s⟩)
        (Cursor.holds_ofBytes name none 1 s) n
    rw [← hpassed] at hspent hlast hleft
    have hrestarted := restart_of_left hleft
    refine ⟨q, hspent, fun v hv => ?_, fun hv => ?_⟩
    · obtain rfl : last = .item (.lit v) := Option.some.inj (hlast.symm.trans hv)
      exact ⟨not_startsWithDigit_of_left hleft, hrestarted⟩
    · have hvalue : last.value?.isSome = false := by
        rcases last with (o | v) | _ | f
        · rfl
        · exact absurd hlast (hv v)
        · rfl
        · rfl
      rw [hvalue] at hrestarted
      exact hrestarted

/-- What a session is that begins a new text between two scans of an old one. What is left of the
old text are the bytes behind the last lexeme or illegal byte that the scans have used: all of it
before the first scan, and nothing behind the end. Behind a literal that some byte follows, this
byte is lost, which is never a digit, but any other byte can be: the session is a new one on the
bytes behind it. In all other cases it is a new one on all that is left. In particular its lines
count from one, it has no current token, and to begin a new text at the start of an input changes
nothing. -/
theorem restart_advances (name : String) (s : List Byte) (k : Nat) :
    let results := ((ofText name s).advances k).1
    let restarted := ((ofText name s).advances k).2.restart
    (∃ q, Spent s results q) ∧
    (∀ q, Spent s results q →
      (k = 0 → q = s) ∧ (.ended ∈ results → q = []) ∧
      (∀ v b after, results.getLast? = some (.item (.lit v)) → q = b :: after →
        b.isDigit = false ∧ restarted = ofText name after) ∧
      ((∀ v, results.getLast? ≠ some (.item (.lit v))) ∨ q = [] → restarted = ofText name q)) ∧
    (∀ digits b after, digits ≠ [] → (∀ d ∈ digits, d.isDigit = true) → b.isDigit = false →
      ((ofText name (digits ++ b :: after)).advances 1).2.restart = ofText name after) ∧
    (restarted.line = 1 ∧ restarted.current = none) ∧
    ∀ script, (begin (.ofScript name script)).restart = begin (.ofScript name script) := by
  intro results restarted
  obtain ⟨q, hspent, hliteral, hother⟩ := exists_restart_advances name s k
  refine ⟨⟨q, hspent⟩, fun q' hspent' => ?_, ?_, ⟨rfl, rfl⟩, fun script => rfl⟩
  · -- the results leave only one choice
    obtain rfl : q' = q := hspent'.eq_iterate.trans hspent.eq_iterate.symm
    refine ⟨?_, fun hended => hspent.eq_nil_of_mem (.inr hended), ?_, ?_⟩
    · rintro rfl
      exact hspent.eq_iterate
    · intro v b after hv hq
      obtain ⟨hdigit, hrestarted⟩ := hliteral v hv
      rw [hq] at hdigit hrestarted
      exact ⟨hdigit, hrestarted⟩
    · rintro (hv | hq)
      · exact hother hv
      · by_cases hv : ∃ v, results.getLast? = some (.item (.lit v))
        · obtain ⟨v, hv⟩ := hv
          have hrestarted := (hliteral v hv).2
          rwa [hq, List.tail_nil, ← hq] at hrestarted
        · exact hother fun v h => hv ⟨v, h⟩
  · intro digits b after hne hdigits hb
    have hscan := Cursor.nextToken_digits_byte name 1 hne hdigits hb (after.map .byte)
    rw [← List.map_cons, ← List.map_append, ← Cursor.nextToken_ofBytes,
      Cursor.nextToken_unchunked] at hscan
    have hrest := Cursor.exists_rest_nextToken
      (c := .ofScript name (.ofBytes (digits ++ b :: after))) ⟨_, rfl⟩
    have hleft : Cursor.Left name (.item (.lit (Numeral.wrapped digits))) (b :: after)
        ((ofText name (digits ++ b :: after)).advances 1).2.cursor := by
      show Cursor.Left name _ _ (ofText name (digits ++ b :: after)).advance.2.cursor
      rw [cursor_advance, ofText, begin,
        Cursor.eq_of_unchunked hrest (congrArg Prod.snd hscan) rfl]
      exact .pending after _ hb
    exact restart_of_left hleft

end Session

end ArithLex
