import Mathlib.Data.List.TakeWhile
import ArithLex.Proofs.Rendering
import ArithLex.Proofs.Scan
import ArithLex.Session

/-!
# Runs of scans

`ScansTo c rs d` says that scanning on and on from `c` gives the results `rs`, and that all further
scans go on as they would from `d`. The cursor that the run leaves need not be `d` itself: it may
have a byte pending that `d` has still to read. Such runs compose (`ScansTo.trans`), and each way to
drive a cursor follows them:

* `ScansTo.tokens_eq`: collecting all tokens at once;
* `ScansTo.fst_advances`: the scans of a session;
* `scansTo_of_renders`: a text that writes tokens is a run that gives exactly these tokens.
-/

namespace ArithLex.Cursor

/-- Scanning on from the first cursor gives the listed results, and then what the second gives. -/
inductive ScansTo : Cursor → List (Pull Token) → Cursor → Prop where
  | stop {c d : Cursor} (h : c.nextToken = d.nextToken) : ScansTo c [] d
  | scan {c c' d : Cursor} {r : Pull Token} {rs : List (Pull Token)}
      (h : c.nextToken = (r, c')) (hrest : ScansTo c' rs d) : ScansTo c (r :: rs) d

namespace ScansTo

variable {c c' d e : Cursor} {r : Pull Token} {rs rs' : List (Pull Token)} {ts : List Token}

/-- A run with one scan, which leaves a cursor as good as `d`. -/
theorem single (h : c.nextToken = (r, c')) (hd : c'.nextToken = d.nextToken) :
    ScansTo c [r] d :=
  scan h (stop hd)

/-- A run depends on where it starts only through the first scan. -/
theorem of_nextToken_eq (h : c.nextToken = d.nextToken) (hd : ScansTo d rs e) : ScansTo c rs e := by
  cases hd with
  | stop hstop => exact stop (h.trans hstop)
  | scan hscan hrest => exact scan (h.trans hscan) hrest

theorem trans (h : ScansTo c rs d) (h' : ScansTo d rs' e) : ScansTo c (rs ++ rs') e := by
  induction h with
  | stop hstop => exact of_nextToken_eq hstop h'
  | scan hscan _ ih => exact scan hscan (ih h')

end ScansTo

/-! ## Collecting all tokens -/

/-- Collecting all tokens depends on the cursor only through the first scan. -/
theorem tokens_congr {c d : Cursor} (h : c.nextToken = d.nextToken) : c.tokens = d.tokens := by
  rw [tokens_eq, tokens_eq d, h]

/-- The tokens of a run stand in front of those behind it. -/
theorem ScansTo.tokens_eq {c d : Cursor} {ts : List Token} (h : ScansTo c (ts.map .item) d) :
    c.tokens = (d.tokens.1.map (ts ++ ·), d.tokens.2) := by
  induction ts generalizing c with
  | nil =>
    cases h with
    | stop hstop =>
      rw [tokens_congr hstop]
      cases hd : d.tokens with
      | mk result c' => cases result <;> rfl
  | cons t ts ih =>
    cases h with
    | scan hscan hrest =>
      rw [Cursor.tokens_eq, hscan]
      simp only [ih hrest]
      cases d.tokens.1 <;> rfl

/-- Where a scan meets the end of the input, no tokens are left. -/
theorem tokens_of_ended {c d : Cursor} (h : c.nextToken = (.ended, d)) :
    c.tokens = (.ok [], d) := by
  rw [Cursor.tokens_eq, h]

/-- Where a scan gives a fault, so does collecting all tokens. -/
theorem tokens_of_fault {c d : Cursor} {f : Fault} (h : c.nextToken = (.fault f, d)) :
    c.tokens = (.error f, d) := by
  rw [Cursor.tokens_eq, h]

/-! ## Texts that write tokens -/

/-- A written token is scanned as this token, and the scan goes no further than it has to. -/
theorem scansTo_of_writtenAs (name : String) (line : UInt32) {t : Token} {s : List Byte}
    (ht : t.WrittenAs s) {rest : List Signal} (hrest : t.value?.isSome → EndsLiteral rest) :
    ScansTo (facing name line (s.map .byte ++ rest)) [.item t] (facing name line rest) := by
  cases t with
  | op o =>
    obtain rfl : s = [o.byte] := ht
    exact .single (nextToken_op name line o rest) rfl
  | lit v =>
    obtain ⟨hne, hdigits, hv⟩ := Token.writtenAs_lit_iff.1 ht
    obtain ⟨c, hscan, hc⟩ := nextToken_digits_of_endsLiteral name line hne hdigits (hrest rfl)
    rw [hv] at hscan
    exact .single hscan hc

/-- A text that writes tokens is a run that gives them, and counts its line feeds. Only where it
ends in a digit does it matter what follows. -/
theorem scansTo_of_renders (name : String) (line : UInt32) {ts : List Token} {s : List Byte}
    (h : Renders ts s) {rest : List Signal} (hend : endsInDigit s = true → EndsLiteral rest) :
    ScansTo (facing name line (s.map .byte ++ rest)) (ts.map .item)
      (facing name (lineBehind line s) rest) := by
  induction h generalizing line with
  | nil hgap => exact .stop (nextToken_gap name line hgap rest)
  | @cons gap written behind t ts hgap ht _ hsep ih =>
    -- the gap moves the line, the token is one scan, and the induction scans what is behind
    have hline : lineBehind line (gap ++ written ++ behind) =
        lineBehind (lineBehind line gap) behind := by
      rw [lineBehind_append, lineBehind_append, lineBehind_of_count_eq_zero ht.count_newline]
    have hlit : t.value?.isSome → EndsLiteral (behind.map .byte ++ rest) := by
      intro hvalue
      cases behind with
      | nil =>
        apply hend
        rw [List.append_nil, endsInDigit_append gap ht.ne_nil, ht.endsInDigit_eq, hvalue]
      | cons b behind => exact .inr ⟨b, _, rfl, hsep hvalue b rfl⟩
    have hbehind : endsInDigit behind = true → EndsLiteral rest := by
      intro hd
      apply hend
      rw [endsInDigit_append _ (ne_nil_of_endsInDigit hd), hd]
    have hfirst := scansTo_of_writtenAs name (lineBehind line gap) ht hlit
    rw [hline, List.map_append, List.map_append, List.append_assoc, List.append_assoc]
    exact .of_nextToken_eq (nextToken_gap name line hgap _) (hfirst.trans (ih _ hbehind))

/-- Tokens before an illegal byte are scanned as if the text ended there. -/
theorem scansTo_before_illegal (name : String) (line : UInt32) {ts : List Token} {front : List Byte}
    {b : Byte} (hts : Renders ts front) (hb : b.isLegal = false) (rest : List Signal) :
    ScansTo (facing name line (front.map .byte ++ .byte b :: rest)) (ts.map .item)
      (facing name (lineBehind line front) (.byte b :: rest)) := by
  have hdigit : b.isDigit = false := by
    cases hd : b.isDigit with
    | false => rfl
    | true =>
      rw [Byte.isLegal_of_isDigit hd] at hb
      contradiction
  exact scansTo_of_renders name line hts fun _ => .inr ⟨b, rest, rfl, hdigit⟩

/-- The legal bytes that a text starts with are scanned as if the text ended behind them. -/
theorem exists_scansTo_dropWhile (name : String) (line : UInt32) (s : List Byte) :
    ∃ ts, Renders ts (s.takeWhile Byte.isLegal) ∧
      ScansTo (facing name line (s.map .byte)) (ts.map .item)
        (facing name (lineBehind line (s.takeWhile Byte.isLegal))
          ((s.dropWhile Byte.isLegal).map .byte)) := by
  have hfront : ∀ b ∈ s.takeWhile Byte.isLegal, b.isLegal = true :=
    fun b hb => List.mem_takeWhile_imp hb
  have hsplit : s.map Signal.byte = (s.takeWhile Byte.isLegal).map .byte ++
      (s.dropWhile Byte.isLegal).map .byte := by
    rw [← List.map_append, List.takeWhile_append_dropWhile]
  obtain ⟨ts, hts⟩ := exists_renders hfront
  refine ⟨ts, hts, ?_⟩
  rw [hsplit]
  rcases hdrop : s.dropWhile Byte.isLegal with _ | ⟨b, behind⟩
  · exact scansTo_of_renders name line hts fun _ => endsLiteral_nil
  · have hb : b.isLegal = false := Byte.isLegal_eq_false_of_dropWhile hdrop
    exact scansTo_before_illegal name line hts hb (behind.map .byte)

end ArithLex.Cursor

/-! ## Sessions -/

namespace ArithLex.Session

/-- A scan depends on a session only through its cursor and its current token. -/
theorem advance_congr {s s' : Session} (h : s.cursor.nextToken = s'.cursor.nextToken)
    (hcurrent : s.current = s'.current) : s.advance = s'.advance := by
  rw [advance, advance, h]
  rcases s'.cursor.nextToken with ⟨t | _ | f, d⟩ <;> simp [hcurrent]

/-- What the scans of a session give depends on it only through the first scan. -/
theorem fst_advances_congr {s s' : Session} (h : s.cursor.nextToken = s'.cursor.nextToken)
    (n : Nat) : (s.advances n).1 = (s'.advances n).1 := by
  induction n generalizing s s' with
  | zero => rfl
  | succ n ih =>
    have hcursor : s.advance.2.cursor.nextToken = s'.advance.2.cursor.nextToken := by
      rw [cursor_advance, cursor_advance, h]
    simp only [advances, fst_advance, h, ih hcursor]

/-- Fewer scans give the first results of more scans. -/
theorem fst_advances_take (s : Session) (n m : Nat) :
    (s.advances (n + m)).1.take n = (s.advances n).1 := by
  induction n generalizing s with
  | zero => rfl
  | succ n ih =>
    rw [Nat.add_right_comm]
    simp only [advances, List.take_succ_cons, ih]

/-- A session follows a run, and then does what a session does that begins where the run goes. -/
theorem fst_advances_of_scansTo {s : Session} {rs : List (Pull Token)} {d : Cursor}
    (h : Cursor.ScansTo s.cursor rs d) (n : Nat) :
    (s.advances (rs.length + n)).1 = rs ++ ((begin d).advances n).1 := by
  induction rs generalizing s with
  | nil =>
    cases h with
    | stop hstop =>
      rw [List.length_nil, Nat.zero_add]
      exact fst_advances_congr hstop n
  | cons r rs ih =>
    cases h with
    | scan hscan hrest =>
      have hcursor : Cursor.ScansTo s.advance.2.cursor rs d := by
        rw [cursor_advance, hscan]
        exact hrest
      rw [List.length_cons, Nat.add_right_comm]
      simp only [advances, fst_advance, hscan, ih hcursor, List.cons_append]

/-- Where the script is used up, every scan meets the end of the input. -/
theorem fst_advances_facing_nil {s : Session} {name : String} {line : UInt32}
    (h : s.cursor = Cursor.facing name line []) (n : Nat) :
    (s.advances n).1 = List.replicate n .ended := by
  induction n generalizing s with
  | zero => rfl
  | succ n ih =>
    have hscan : s.cursor.nextToken = (.ended, Cursor.facing name line []) := by
      rw [h, Cursor.nextToken_nil]
    have hcursor : s.advance.2.cursor = Cursor.facing name line [] := by
      rw [cursor_advance, hscan]
    simp only [advances, fst_advance, hscan, ih hcursor, List.replicate_succ]

end ArithLex.Session
