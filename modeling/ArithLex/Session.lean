import ArithLex.Lexing

/-!
# Sessions

A session scans a cursor one token at a time, as fast as its holder asks, and keeps the last token
it found in a slot. It goes on after an end of input and after a fault. All that decides what comes
next is in the cursor, which the session hands back when it is over.

`Session.collect` scans up to the end of the input, and takes each token from the slot. What was in
the slot before plays no part in this, so that it can be said in terms of the cursor alone: all
tokens from a cursor (`Cursor.tokens`) are the first one and those behind it (`Cursor.tokens_eq`).
-/

namespace ArithLex

/-- A cursor that is being scanned, and the token found last. -/
structure Session where
  cursor : Cursor
  current : Option Token
deriving DecidableEq, Repr

namespace Session

/-- Opens a session where the cursor stands. No token has been found yet. -/
def begin (c : Cursor) : Session where
  cursor := c
  current := none

/-- Begins a new text where the cursor stands, and forgets the current token. -/
def restart (s : Session) : Session :=
  begin s.cursor.beginText

/-- Scans one token. Only a scan that finds a token changes the current one. -/
def advance (s : Session) : Pull Token × Session :=
  match s.cursor.nextToken with
  | (.item t, c) => (.item t, { cursor := c, current := some t })
  | (.ended, c) => (.ended, { s with cursor := c })
  | (.fault f, c) => (.fault f, { s with cursor := c })

/-- The line on which the cursor stands. -/
def line (s : Session) : UInt32 :=
  s.cursor.line

/-- Scans `n` times, whatever the scans give, and lists their results. -/
def advances : Session → Nat → List (Pull Token) × Session
  | s, 0 => ([], s)
  | s, n + 1 =>
    let (r, s) := s.advance
    let (rs, s) := s.advances n
    (r :: rs, s)

/-! ## What a scan changes -/

@[simp] theorem cursor_advance (s : Session) : s.advance.2.cursor = s.cursor.nextToken.2 := by
  unfold advance
  split <;> simp_all

@[simp] theorem fst_advance (s : Session) : s.advance.1 = s.cursor.nextToken.1 := by
  unfold advance
  split <;> simp_all

theorem current_advance_of_item {s : Session} {t : Token} (h : s.advance.1 = .item t) :
    s.advance.2.current = some t := by
  unfold advance at h ⊢
  split <;> simp_all

theorem current_advance_of_not_item {s : Session} (h : ∀ t, s.advance.1 ≠ .item t) :
    s.advance.2.current = s.current := by
  unfold advance at h ⊢
  split <;> simp_all

theorem nextToken_of_advance {s s' : Session} {r : Pull Token} (h : s.advance = (r, s')) :
    s.cursor.nextToken = (r, s'.cursor) := by
  rw [Prod.ext_iff, ← fst_advance, ← cursor_advance, h]
  exact ⟨rfl, rfl⟩

theorem size_advance_lt {s s' : Session} {t : Token} (h : s.advance = (.item t, s')) :
    s'.cursor.size < s.cursor.size := by
  have hscan := nextToken_of_advance h
  have hlt := Cursor.size_nextToken_lt (congrArg Prod.fst hscan)
  rwa [hscan] at hlt

/-! ## Collecting tokens -/

/-- Scans up to the end of the input and collects the current token behind each scan that has found
one, or gives the first fault on the way there. -/
def collect (s : Session) : Except Fault (List Token) × Session :=
  go #[] s
where
  /-- Scans on behind the tokens in `found`. -/
  go (found : Array Token) (s : Session) : Except Fault (List Token) × Session :=
    match h : s.advance with
    | (.item _, s') =>
      have : s'.cursor.size < s.cursor.size := size_advance_lt h
      go (found ++ s'.current.toArray) s'
    | (.ended, s') => (.ok found.toList, s')
    | (.fault f, s') => (.error f, s')
  termination_by s.cursor.size

theorem collect.go_eq (found : Array Token) (s : Session) :
    collect.go found s = match s.advance with
      | (.item _, s') => collect.go (found ++ s'.current.toArray) s'
      | (.ended, s') => (.ok found.toList, s')
      | (.fault f, s') => (.error f, s') := by
  rw [collect.go]
  split <;> simp_all

/-- Tokens found earlier stand in front of those found later. -/
theorem collect.go_append (found : Array Token) (s : Session) :
    collect.go found s =
      ((collect.go #[] s).1.map (found.toList ++ ·), (collect.go #[] s).2) := by
  obtain ⟨c, current⟩ := s
  -- along the scans that the loop makes, for every array of tokens found before
  induction c using Cursor.token_induction generalizing found current with
  | step c ih =>
    rw [go_eq, go_eq #[]]
    rcases h : advance ⟨c, current⟩ with ⟨t | _ | f, c', current'⟩
    · have hscan : c.nextToken = (.item t, c') := nextToken_of_advance h
      simp only
      rw [ih t c' hscan (found ++ current'.toArray), ih t c' hscan (#[] ++ current'.toArray)]
      cases (collect.go #[] ⟨c', current'⟩).1 <;> simp [Except.map]
    · simp [Except.map]
    · simp [Except.map]

/-- What is collected are the current token behind the first scan and the tokens behind it. -/
theorem collect_eq (s : Session) :
    s.collect = match s.advance with
      | (.item _, s') => (s'.collect.1.map (s'.current.toList ++ ·), s'.collect.2)
      | (.ended, s') => (.ok [], s')
      | (.fault f, s') => (.error f, s') := by
  unfold collect
  rw [collect.go_eq]
  split
  · rw [collect.go_append]
    simp
  · rfl
  · rfl

/-- A session that collects tokens does not depend on the token that was current before: the first
scan that finds one replaces it. -/
theorem collect_congr {s s' : Session} (h : s.cursor = s'.cursor) :
    s.collect.1 = s'.collect.1 ∧ s.collect.2.cursor = s'.collect.2.cursor := by
  rw [collect_eq, collect_eq s', advance, advance, h]
  rcases s'.cursor.nextToken with ⟨t | _ | f, c⟩ <;> exact ⟨rfl, rfl⟩

end Session

namespace Cursor

/-- The tokens from the cursor to the end of the input, or the first fault on the way there, and
the cursor after the last scan. -/
def tokens (c : Cursor) : Except Fault (List Token) × Cursor :=
  let (result, s) := (Session.begin c).collect
  (result, s.cursor)

/-- All tokens are the first one and those behind it. -/
theorem tokens_eq (c : Cursor) :
    c.tokens = match c.nextToken with
      | (.item t, c') => (c'.tokens.1.map (t :: ·), c'.tokens.2)
      | (.ended, c') => (.ok [], c')
      | (.fault f, c') => (.error f, c') := by
  rw [tokens, Session.collect_eq, Session.advance, Session.begin]
  rcases c.nextToken with ⟨t | _ | f, c'⟩
  · -- the session that goes on has a current token, and one that begins anew has none
    have hsame : (⟨c', some t⟩ : Session).cursor = (Session.begin c').cursor := rfl
    obtain ⟨hresult, hcursor⟩ := Session.collect_congr hsame
    simp only [tokens, hresult, hcursor, Option.toList_some, List.singleton_append]
  · rfl
  · rfl

end Cursor

/-- Whatever the current token was before, a session collects the tokens from its cursor. -/
theorem Session.collect_eq_tokens (s : Session) :
    s.collect.1 = s.cursor.tokens.1 ∧ s.collect.2.cursor = s.cursor.tokens.2 :=
  collect_congr rfl

end ArithLex
