import ArithLex.Proofs.Rendering
import ArithLex.Proofs.Run
import ArithLex.Proofs.Shift

/-!
# The items of a text

Scanning on behind every fault, up to the first end of the input, lists the items of a cursor: its
tokens and its faults, in order (`Cursor.items`). The items of the bytes of a text are the same
wherever in an input the text stands, as long as nothing behind it runs into its last literal
(`scansTo_items`); digits at the end of a text are its last item (`items_append_digits`).
-/

namespace ArithLex

namespace Cursor

/-- The results of scanning on and on, before the first one that is the end of the input. -/
def items (c : Cursor) : List (Pull Token) :=
  match h : c.nextToken with
  | (.item t, c') =>
    have : c'.size < c.size := by simpa [h] using size_nextToken_lt_of_ne_ended (c := c)
    .item t :: c'.items
  | (.fault f, c') =>
    have : c'.size < c.size := by simpa [h] using size_nextToken_lt_of_ne_ended (c := c)
    .fault f :: c'.items
  | (.ended, _) => []
termination_by c.size

theorem items_eq (c : Cursor) :
    c.items = match c.nextToken with
      | (.item t, c') => .item t :: c'.items
      | (.fault f, c') => .fault f :: c'.items
      | (.ended, _) => [] := by
  rw [items]
  split <;> simp_all

/-- The items depend on the cursor only through the first scan. -/
theorem items_congr {c d : Cursor} (h : c.nextToken = d.nextToken) : c.items = d.items := by
  rw [items_eq, items_eq d, h]

theorem items_of_ended {c d : Cursor} (h : c.nextToken = (.ended, d)) : c.items = [] := by
  rw [items_eq, h]

/-- The results of a run that meets no end of the input stand in front of the items behind it. -/
theorem ScansTo.items_eq {c d : Cursor} {rs : List (Pull Token)} (h : ScansTo c rs d)
    (hrs : .ended ∉ rs) : c.items = rs ++ d.items := by
  induction h with
  | stop hstop => exact items_congr hstop
  | @scan c c' d r rs hscan _ ih =>
    simp only [List.mem_cons, not_or] at hrs
    rw [Cursor.items_eq, hscan]
    rcases r with t | _ | f
    · simp only [ih hrs.2, List.cons_append]
    · exact absurd rfl hrs.1
    · simp only [ih hrs.2, List.cons_append]

theorem ended_not_mem_items (c : Cursor) : .ended ∉ c.items := by
  induction c using items.induct with
  | case1 c t c' h hlt ih =>
    rw [items_eq, h]
    simpa using ih
  | case2 c f c' h hlt ih =>
    rw [items_eq, h]
    simpa using ih
  | case3 c c' h => simp [items_of_ended h]

/-- A cursor that is seen has the same items, with their faults renamed. -/
theorem View.items (v : View) (c : Cursor) :
    (v.see c).items = c.items.map (Pull.mapFault v.rename) := by
  -- along the scans that the items list
  induction c using items.induct with
  | case1 c t c' h hlt ih =>
    rw [items_eq, items_eq c, v.nextToken, h]
    simp only [Pull.mapFault, ih, List.map_cons]
  | case2 c f c' h hlt ih =>
    rw [items_eq, items_eq c, v.nextToken, h]
    simp only [Pull.mapFault, ih, List.map_cons]
  | case3 c c' h =>
    rw [items_eq, items_eq c, v.nextToken, h]
    rfl

/-- The items of a text are the same `k` lines further down. -/
theorem items_down (k : UInt32) (c : Cursor) : (c.down k).items = c.items.map (Pull.down k) := by
  have hitems := (downView k).items c
  rwa [show Pull.mapFault (downView k).rename = Pull.down k from
    funext fun r => (Pull.down_eq k r).symm] at hitems

theorem items_unchunked (c : Cursor) : c.unchunked.items = c.items := by
  have hitems := unchunkedView.items c
  rwa [show Pull.mapFault unchunkedView.rename = id from funext Pull.mapFault_id,
    List.map_id] at hitems

/-! ## Texts -/

/-- A text that does not end in a digit is scanned to its end, whatever follows it. -/
theorem exists_scansTo_of_not_endsInDigit (name : String) (line : UInt32) {s : List Byte}
    (hs : endsInDigit s = false) :
    ∃ rs : List (Pull Token), .ended ∉ rs ∧ ∀ rest,
      ScansTo (facing name line (s.map .byte ++ rest)) rs
        (facing name (lineBehind line s) rest) := by
  -- by the illegal bytes of the text, the first of them first
  induction hn : s.length using Nat.strongRecOn generalizing line s with
  | ind n ih =>
    rcases legal_or_first_illegal s with hlegal | ⟨front, b, behind, rfl, hfront, hb⟩
    · -- all of the text writes tokens
      obtain ⟨ts, hts⟩ := exists_renders hlegal
      have hend : ∀ rest, endsInDigit s = true → EndsLiteral rest := by
        intro rest h
        rw [hs] at h
        contradiction
      exact ⟨ts.map .item, by simp, fun rest => scansTo_of_renders name line hts (hend rest)⟩
    · -- tokens up to the illegal byte, its fault, and the induction for what is behind it
      have hlt : behind.length < n := by
        rw [← hn, List.length_append, List.length_cons]
        omega
      have hbehind : endsInDigit behind = false := by
        rcases behind with _ | ⟨x, behind⟩
        · rfl
        · rwa [List.append_cons, endsInDigit_append _ (List.cons_ne_nil x behind)] at hs
      have hline : lineBehind line (front ++ b :: behind) =
          lineBehind (lineBehind line front) behind := by
        rw [lineBehind_append, lineBehind_cons,
          lineAfter_of_ne (Byte.ne_newline_of_not_isLegal hb)]
      obtain ⟨ts, hts⟩ := exists_renders hfront
      obtain ⟨rs, hrs, hrun⟩ := ih _ hlt (lineBehind line front) hbehind rfl
      refine ⟨ts.map .item ++ .fault (.illegalByte b ⟨lineBehind line front, name⟩) :: rs,
        by simpa using hrs, fun rest => ?_⟩
      rw [List.map_append, List.map_cons, List.append_assoc, List.cons_append, hline]
      exact (scansTo_before_illegal name line hts hb _).trans
        (.scan (nextToken_illegal name _ hb _) (hrun rest))

/-- The items of a text that does not end in a digit are the results of scanning through it. -/
theorem scansTo_items_of_not_endsInDigit (name : String) (line : UInt32) {s : List Byte}
    (hs : endsInDigit s = false) (rest : List Signal) :
    ScansTo (facing name line (s.map .byte ++ rest)) (facing name line (s.map .byte)).items
      (facing name (lineBehind line s) rest) := by
  obtain ⟨rs, hrs, hrun⟩ := exists_scansTo_of_not_endsInDigit name line hs
  -- with nothing behind the text, the run is the items
  have hitems := (hrun []).items_eq hrs
  rw [List.append_nil, items_of_ended (nextToken_nil _ _), List.append_nil] at hitems
  rw [hitems]
  exact hrun rest

/-- Digits at the end of a text are its last item. -/
theorem items_append_digits (name : String) (line : UInt32) {front digits : List Byte}
    (hfront : endsInDigit front = false) (hne : digits ≠ [])
    (hdigits : ∀ d ∈ digits, d.isDigit = true) :
    (facing name line ((front ++ digits).map .byte)).items =
      (facing name line (front.map .byte)).items ++ [.item (.lit (Numeral.wrapped digits))] := by
  have hrun := scansTo_items_of_not_endsInDigit name line hfront (digits.map .byte)
  obtain ⟨c, hscan, hc⟩ := nextToken_digits_of_endsLiteral name
    (lineBehind line front) hne hdigits endsLiteral_nil
  rw [List.append_nil] at hscan
  rw [nextToken_nil] at hc
  have hlast : (facing name (lineBehind line front) (digits.map .byte)).items =
      [.item (.lit (Numeral.wrapped digits))] := by
    rw [items_eq, hscan]
    simp only [items_of_ended hc]
  rw [List.map_append, hrun.items_eq (ended_not_mem_items _), hlast]

/-- The items of a text are the results of scanning through it, if nothing behind the text runs into
its last literal. -/
theorem scansTo_items (name : String) (line : UInt32) {s : List Byte} {rest : List Signal}
    (hend : endsInDigit s = true → EndsLiteral rest) :
    ScansTo (facing name line (s.map .byte ++ rest)) (facing name line (s.map .byte)).items
      (facing name (lineBehind line s) rest) := by
  obtain ⟨front, digits, rfl, hfront, hdigits⟩ := exists_trailing_digits s
  by_cases hne : digits = []
  · subst hne
    rw [List.append_nil]
    exact scansTo_items_of_not_endsInDigit name line hfront rest
  · -- the digits at the end are one more scan
    have hwritten := Token.writtenAs_wrapped hne hdigits
    have hrest : EndsLiteral rest := by
      apply hend
      exact endsInDigit_append_digits front hne hdigits
    have hrun := scansTo_items_of_not_endsInDigit name line hfront (digits.map .byte ++ rest)
    rw [items_append_digits name line hfront hne hdigits, List.map_append, List.append_assoc,
      lineBehind_append, lineBehind_of_count_eq_zero hwritten.count_newline]
    exact hrun.trans (scansTo_of_writtenAs name _ hwritten fun _ => hrest)

end Cursor

end ArithLex
