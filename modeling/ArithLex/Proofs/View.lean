import ArithLex.TokenStream

/-!
# Views of cursors

A view replaces each cursor by another one and renames faults, in such a way that reads correspond
(`Cursor.View.read`). Nothing that scans a cursor looks at it in any other way, so that everything
built on reads corresponds, too: single scans (`nextToken`), collecting all tokens (`tokens`),
sessions (`advance`) and token streams (`pull`, `drain`). What a view changes is therefore settled
at the single read.

The first view is that of a cursor whose events have been taken apart into single signals
(`Cursor.unchunkedView`). It changes no result, so that laws of scanning need only be stated for
cursors that face single signals (`nextToken_unchunked`, `tokens_unchunked`).
-/

namespace ArithLex

/-- A result with its fault renamed. -/
def Pull.mapFault {α : Type} (rename : Fault → Fault) : Pull α → Pull α
  | item a => item a
  | ended => ended
  | fault f => fault (rename f)

@[simp] theorem Pull.mapFault_item {α : Type} (rename : Fault → Fault) (a : α) :
    (item a).mapFault rename = item a := rfl

@[simp] theorem Pull.mapFault_id {α : Type} (r : Pull α) : r.mapFault id = r := by
  cases r <;> rfl

@[simp] theorem mapError_id {α : Type} (r : Except Fault α) : r.mapError id = r := by
  cases r <;> rfl

/-- A way to see cursors under which reads correspond. -/
structure Cursor.View where
  /-- The cursor that a cursor is seen as. -/
  see : Cursor → Cursor
  /-- The fault that a fault is seen as. -/
  rename : Fault → Fault
  read (c : Cursor) : (see c).read = (c.read.1.mapFault rename, see c.read.2)
  unread (c : Cursor) (b : Byte) : (see c).unread b = see (c.unread b)
  /-- An illegal byte is seen where the cursor is seen to stand. -/
  illegalByte (c : Cursor) (b : Byte) :
    Fault.illegalByte b (see c).position = rename (.illegalByte b c.position)

namespace Cursor.View

variable (v : View)

/-! ## Scans -/

theorem passBlanks (c : Cursor) :
    (v.see c).passBlanks = (c.passBlanks.1.mapFault v.rename, v.see c.passBlanks.2) := by
  -- along the blanks that are read
  induction c using read_induction with
  | step c ih =>
    rw [passBlanks_eq, passBlanks_eq c, v.read]
    rcases h : c.read with ⟨b | _ | f, c'⟩
    · simp only [Pull.mapFault_item]
      by_cases hb : b.isBlank = true
      · simp only [hb, if_true, ih b c' h]
      · simp only [hb, Bool.false_eq_true, if_false, Pull.mapFault_item]
    · rfl
    · rfl

theorem literal (c : Cursor) (x : Int64) :
    (v.see c).literal x = ((c.literal x).1.mapFault v.rename, v.see (c.literal x).2) := by
  -- along the digits that are read
  induction c using read_induction generalizing x with
  | step c ih =>
    rw [literal_eq, literal_eq c, v.read]
    rcases h : c.read with ⟨b | _ | f, c'⟩
    · simp only [Pull.mapFault_item]
      by_cases hb : b.isDigit = true
      · simp only [hb, if_true, ih b c' h]
      · simp only [hb, Bool.false_eq_true, if_false, v.unread, Pull.mapFault_item]
    · rfl
    · rfl

theorem nextToken (c : Cursor) :
    (v.see c).nextToken = (c.nextToken.1.mapFault v.rename, v.see c.nextToken.2) := by
  simp only [Cursor.nextToken, v.passBlanks]
  rcases c.passBlanks with ⟨b | _ | f, c'⟩
  · simp only [Pull.mapFault]
    rcases Operator.ofByte? b with _ | o
    · by_cases hb : b.isDigit = true
      · simp only [hb, if_true, v.literal]
        rfl
      · simp only [hb, Bool.false_eq_true, if_false, v.illegalByte]
    · rfl
  · rfl
  · rfl

theorem tokens (c : Cursor) :
    (v.see c).tokens = (c.tokens.1.mapError v.rename, v.see c.tokens.2) := by
  -- along the scans that collecting makes
  induction c using token_induction with
  | step c ih =>
    rw [tokens_eq, tokens_eq c, v.nextToken]
    match h : c.nextToken with
    | (.item t, c') =>
      simp only [Pull.mapFault, ih t c' h]
      cases c'.tokens.1 <;> rfl
    | (.ended, c') => rfl
    | (.fault f, c') => rfl

/-! ## Sessions and streams -/

/-- A session on a cursor that is seen. -/
def session (s : Session) : Session :=
  { s with cursor := v.see s.cursor }

/-- A stream on a cursor that is seen. -/
def stream (s : TokenStream) : TokenStream :=
  { s with session := v.session s.session }

theorem advance (s : Session) :
    (v.session s).advance = (s.advance.1.mapFault v.rename, v.session s.advance.2) := by
  simp only [Session.advance, session, v.nextToken]
  rcases s.cursor.nextToken with ⟨t | _ | f, c⟩ <;> rfl

theorem advances (s : Session) (n : Nat) :
    (v.session s).advances n =
      ((s.advances n).1.map (Pull.mapFault v.rename), v.session (s.advances n).2) := by
  induction n generalizing s with
  | zero => rfl
  | succ n ih => simp only [Session.advances, v.advance, ih, List.map_cons]

theorem pull (s : TokenStream) :
    (v.stream s).pull = (s.pull.1.map (Except.mapError v.rename), v.stream s.pull.2) := by
  simp only [TokenStream.pull, stream, v.advance]
  by_cases hclosed : s.closed = true
  · simp only [hclosed, if_true, Option.map_none]
  · simp only [hclosed, Bool.false_eq_true, if_false]
    rcases s.session.advance with ⟨t | _ | f, s'⟩
    · -- the session that is seen has the same token in its slot
      have hcurrent : (v.session s').current = s'.current := rfl
      simp only [Pull.mapFault, hcurrent, Option.map_map]
      rfl
    · rfl
    · rfl

theorem drain (s : TokenStream) :
    (v.stream s).drain = (s.drain.1.map (Except.mapError v.rename), v.stream s.drain.2) := by
  -- along the pulls that draining makes
  induction s using TokenStream.pull_induction with
  | step s ih =>
    rw [TokenStream.drain_eq, TokenStream.drain_eq s, v.pull]
    match h : s.pull with
    | (some r, s') =>
      simp only [Option.map_some, ih r s' h, List.map_cons]
    | (none, s') => rfl

end Cursor.View

/-! ## Single signals -/

namespace Cursor

/-- A cursor whose events have been taken apart is seen to give the same results. -/
def unchunkedView : View where
  see := unchunked
  rename := id
  read c := by rw [read_unchunked, Pull.mapFault_id]
  unread _ _ := rfl
  illegalByte _ _ := rfl

theorem nextToken_unchunked (c : Cursor) :
    c.unchunked.nextToken = (c.nextToken.1, c.nextToken.2.unchunked) := by
  have hscan := unchunkedView.nextToken c
  rwa [show unchunkedView.rename = id from rfl, Pull.mapFault_id] at hscan

theorem tokens_unchunked (c : Cursor) :
    c.unchunked.tokens = (c.tokens.1, c.tokens.2.unchunked) := by
  have htokens := unchunkedView.tokens c
  rwa [show unchunkedView.rename = id from rfl, mapError_id] at htokens

end Cursor

/-- The scans of a session give the same if the events of its script have been taken apart. -/
theorem Session.fst_advances_unchunked (c : Cursor) (n : Nat) :
    ((begin c.unchunked).advances n).1 = ((begin c).advances n).1 := by
  have hadvances := congrArg Prod.fst (Cursor.unchunkedView.advances (begin c) n)
  rwa [show Pull.mapFault Cursor.unchunkedView.rename = id from funext Pull.mapFault_id,
    List.map_id] at hadvances

end ArithLex
