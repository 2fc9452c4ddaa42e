import ArithLex.Program
import ArithLex.Proofs.Drivers

/-!
# Handing a cursor over

Clients may take turns on one cursor: one scans with a session for a while, one pulls from a token
stream, one collects all tokens. All that decides what comes next is in the cursor, the byte read
ahead included, so that the turns together are one run of scans, cut into slices
(`Turn.exists_scanned`). How long a slice is depends on the kind of turn: a session scans as often
as it is asked, a stream scans once a pull until it is closed, and collecting ends with the first
scan that finds no token. `Turn.Shows` says so, and what a client makes of its slice.

The main result is `exists_slices_of_turns`.
-/

namespace ArithLex

/-! ## Sessions as runs -/

namespace Session

open Cursor (Scanned)

theorem scanned_advances (s : Session) (n : Nat) :
    Scanned s.cursor (s.advances n).1 (s.advances n).2.cursor := by
  induction n generalizing s with
  | zero => exact .stop s.cursor
  | succ n ih => exact .scan (nextToken_of_advance rfl) (ih s.advance.2)

theorem length_advances (s : Session) (n : Nat) : (s.advances n).1.length = n := by
  induction n generalizing s with
  | zero => rfl
  | succ n ih => simp only [advances, List.length_cons, ih]

/-- A session that scans as often as a run does gives the results of the run, and leaves what the
run leaves. -/
theorem advances_of_scanned {s : Session} {rs : List (Pull Token)} {d : Cursor}
    (h : Scanned s.cursor rs d) :
    (s.advances rs.length).1 = rs ∧ (s.advances rs.length).2.cursor = d := by
  induction rs generalizing s with
  | nil =>
    cases h with
    | stop => exact ⟨rfl, rfl⟩
  | cons r rs ih =>
    cases h with
    | @scan _ c' _ _ _ hscan hrest =>
      have hcursor : s.advance.2.cursor = c' := by rw [cursor_advance, hscan]
      rw [← hcursor] at hrest
      obtain ⟨hresults, hleft⟩ := ih hrest
      simp only [List.length_cons, advances, fst_advance, hscan, hresults, hleft,
        and_self]

end Session

/-! ## Turns -/

/-- What a client does while it has the cursor. -/
inductive Turn where
  /-- Opens a session and scans `n` times, whatever the scans give. -/
  | scans (n : Nat)
  /-- Opens a token stream and pulls `n` times. -/
  | pulls (n : Nat)
  /-- Collects all tokens at once. -/
  | collect
deriving DecidableEq, Repr

/-- What a client sees in its turn. -/
inductive Sight where
  | results (rs : List (Pull Token))
  | items (os : List (Option (Except Fault Token)))
  | tokens (r : Except Fault (List Token))

namespace Turn

/-- Takes a turn on a cursor, and hands the cursor back. -/
def run (c : Cursor) : Turn → Sight × Cursor
  | scans n =>
    let (rs, s) := (Session.begin c).advances n
    (.results rs, s.cursor)
  | pulls n =>
    let (os, s) := (TokenStream.ofCursor c).pulls n
    (.items os, s.cursor)
  | collect =>
    let (r, c) := c.tokens
    (.tokens r, c)

/-- `turn.Shows rs sight`: in this turn there are scans which give `rs`, and of these the client
sees `sight`. -/
inductive Shows : Turn → List (Pull Token) → Sight → Prop where
  | scans (rs : List (Pull Token)) : Shows (.scans rs.length) rs (.results rs)
  | noPull : Shows (.pulls 0) [] (.items [])
  | pullItem {n : Nat} {rs : List (Pull Token)} {os : List (Option (Except Fault Token))}
      (t : Token) (hrest : Shows (.pulls n) rs (.items os)) :
      Shows (.pulls (n + 1)) (.item t :: rs) (.items (some (.ok t) :: os))
  /-- Pulls behind the end of the input make no scan. -/
  | pullEnd (n : Nat) : Shows (.pulls (n + 1)) [.ended] (.items (none :: List.replicate n none))
  /-- Pulls behind a fault make no scan. -/
  | pullFault (n : Nat) (f : Fault) :
      Shows (.pulls (n + 1)) [.fault f] (.items (some (.error f) :: List.replicate n none))
  | collectOk (ts : List Token) :
      Shows .collect (ts.map .item ++ [.ended]) (.tokens (.ok ts))
  | collectError (ts : List Token) (f : Fault) :
      Shows .collect (ts.map .item ++ [.fault f]) (.tokens (.error f))

/-! ## One turn -/

open Cursor (Scanned)

/-- Pulling from a stream makes scans up to the end of the input or a fault. -/
theorem exists_scanned_pulls (c : Cursor) (current : Option Token) (n : Nat) :
    ∃ rs, Scanned c rs (TokenStream.pulls ⟨⟨c, current⟩, false⟩ n).2.cursor ∧
      Shows (.pulls n) rs (.items (TokenStream.pulls ⟨⟨c, current⟩, false⟩ n).1) := by
  induction n generalizing c current with
  | zero => exact ⟨[], .stop c, .noPull⟩
  | succ n ih =>
    rcases hscan : c.nextToken with ⟨t | _ | f, d⟩
    · obtain ⟨rs, hrun, hshows⟩ := ih d (some t)
      simp only [TokenStream.pulls, TokenStream.pull_of_item hscan]
      exact ⟨.item t :: rs, .scan hscan hrun, .pullItem t hshows⟩
    · simp only [TokenStream.pulls, TokenStream.pull_of_ended hscan,
        TokenStream.pulls_of_closed]
      exact ⟨[.ended], .single hscan, .pullEnd n⟩
    · simp only [TokenStream.pulls, TokenStream.pull_of_fault hscan,
        TokenStream.pulls_of_closed]
      exact ⟨[.fault f], .single hscan, .pullFault n f⟩

/-- Collecting makes scans up to the first that finds no token. -/
theorem exists_scanned_tokens (c : Cursor) :
    ∃ rs, Scanned c rs c.tokens.2 ∧ Shows .collect rs (.tokens c.tokens.1) := by
  obtain ⟨ts, d, hrun, hd⟩ := c.exists_scanned_tokens
  have htokens := hrun.scansTo.tokens_eq
  rcases hlast : d.nextToken with ⟨t | _ | f, e⟩
  · exact absurd (congrArg Prod.fst hlast) (hd t)
  · rw [Cursor.tokens_of_ended hlast] at htokens
    rw [htokens]
    refine ⟨ts.map .item ++ [.ended], hrun.trans (.single hlast), ?_⟩
    simpa [Except.map] using Shows.collectOk ts
  · rw [Cursor.tokens_of_fault hlast] at htokens
    rw [htokens]
    exact ⟨ts.map .item ++ [.fault f], hrun.trans (.single hlast), .collectError ts f⟩

/-- A turn is a run of scans. -/
theorem exists_scanned (c : Cursor) (turn : Turn) :
    ∃ rs, Scanned c rs (turn.run c).2 ∧ turn.Shows rs (turn.run c).1 := by
  cases turn with
  | scans n =>
    have hshows := Shows.scans ((Session.begin c).advances n).1
    rw [Session.length_advances] at hshows
    exact ⟨_, (Session.begin c).scanned_advances n, hshows⟩
  | pulls n => exact exists_scanned_pulls c none n
  | collect => exact exists_scanned_tokens c

end Turn

/-! ## Turn after turn -/

/-- Turns one after the other are one run of scans, of which each turn shows its slice. -/
theorem exists_scanned_of_turns (c : Cursor) (turns : List Turn) :
    ∃ slices : List (List (Pull Token)),
      Cursor.Scanned c slices.flatten (performAll Turn.run c turns).2 ∧
      slices.length = turns.length ∧
      List.Forall₂ (fun (turn, rs) sight => turn.Shows rs sight) (turns.zip slices)
        (performAll Turn.run c turns).1 := by
  induction turns generalizing c with
  | nil => exact ⟨[], .stop c, rfl, .nil⟩
  | cons turn turns ih =>
    obtain ⟨rs, hrun, hshows⟩ := turn.exists_scanned c
    obtain ⟨slices, hruns, hlength, hall⟩ := ih (turn.run c).2
    refine ⟨rs :: slices, hrun.trans hruns, ?_, .cons hshows hall⟩
    rw [List.length_cons, List.length_cons, hlength]

/-- Whatever turns clients take on a cursor, they see consecutive slices of what a single session
sees that makes all the scans, and they leave the cursor as that session does. -/
theorem exists_slices_of_turns (c : Cursor) (turns : List Turn) :
    ∃ slices : List (List (Pull Token)),
      slices.length = turns.length ∧
      List.Forall₂ (fun (turn, rs) sight => turn.Shows rs sight) (turns.zip slices)
        (performAll Turn.run c turns).1 ∧
      ((Session.begin c).advances slices.flatten.length).1 = slices.flatten ∧
      ((Session.begin c).advances slices.flatten.length).2.cursor =
        (performAll Turn.run c turns).2 := by
  obtain ⟨slices, hruns, hlength, hall⟩ := exists_scanned_of_turns c turns
  obtain ⟨hresults, hleft⟩ := Session.advances_of_scanned (s := Session.begin c) hruns
  exact ⟨slices, hlength, hall, hresults, hleft⟩

end ArithLex
