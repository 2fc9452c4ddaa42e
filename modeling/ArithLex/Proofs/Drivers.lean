import ArithLex.Proofs.Run
import ArithLex.TokenStream

/-!
# Two ways to collect tokens

`Cursor.tokens` collects all tokens at once, and a token stream gives them one by one until it is
drained. Both scan the same way: they find tokens up to the first scan that finds none
(`Cursor.exists_scanned_tokens`), and that scan decides how they end. Both take their tokens from
the slot of a session, and whatever the slot held before is replaced before it is looked at.

The main result is `TokenStream.drain_iff_tokens`.
-/

namespace ArithLex

/-! ## Exact runs -/

/-- Scanning from the first cursor gives the listed results and leaves the second cursor. -/
inductive Cursor.Scanned : Cursor → List (Pull Token) → Cursor → Prop where
  | stop (c : Cursor) : Scanned c [] c
  | scan {c c' d : Cursor} {r : Pull Token} {rs : List (Pull Token)}
      (h : c.nextToken = (r, c')) (hrest : Scanned c' rs d) : Scanned c (r :: rs) d

namespace Cursor

variable {c c' d e : Cursor} {r : Pull Token} {rs rs' : List (Pull Token)} {ts : List Token}

theorem Scanned.single (h : c.nextToken = (r, d)) : Scanned c [r] d :=
  scan h (stop d)

theorem Scanned.trans (h : Scanned c rs d) (h' : Scanned d rs' e) : Scanned c (rs ++ rs') e := by
  induction h with
  | stop => exact h'
  | scan hscan _ ih => exact scan hscan (ih h')

theorem Scanned.scansTo (h : Scanned c rs d) : ScansTo c rs d := by
  induction h with
  | stop c => exact .stop rfl
  | scan hscan _ ih => exact .scan hscan ih

/-- From every cursor there are some tokens, and then a scan that finds none. -/
theorem exists_scanned_tokens (c : Cursor) :
    ∃ (ts : List Token) (d : Cursor), Scanned c (ts.map .item) d ∧
      ∀ t, d.nextToken.1 ≠ .item t := by
  induction c using token_induction with
  | step c ih =>
    by_cases hitem : ∃ t, c.nextToken.1 = .item t
    · obtain ⟨t, ht⟩ := hitem
      have hscan : c.nextToken = (.item t, c.nextToken.2) := Prod.ext ht rfl
      obtain ⟨ts, d, hrun, hd⟩ := ih t _ hscan
      exact ⟨t :: ts, d, .scan hscan hrun, hd⟩
    · exact ⟨[], c, .stop c, fun t ht => hitem ⟨t, ht⟩⟩

end Cursor

/-! ## Streams -/

namespace TokenStream

open Cursor (Scanned)

theorem pull_of_closed {s : TokenStream} (h : s.closed = true) : s.pull = (none, s) := by
  simp [pull, h]

/-- A closed stream gives nothing, however often it is asked, and stays as it is. -/
theorem pulls_of_closed {s : TokenStream} (h : s.closed = true) (n : Nat) :
    s.pulls n = (List.replicate n none, s) := by
  induction n with
  | zero => rfl
  | succ n ih => simp only [pulls, pull_of_closed h, ih, List.replicate_succ]

theorem drain_of_closed {s : TokenStream} (h : s.closed = true) : s.drain = ([], s) := by
  rw [drain_eq, pull_of_closed h]

variable {c d e : Cursor} {current : Option Token} {t : Token} {f : Fault}

theorem pull_of_item (h : c.nextToken = (.item t, d)) :
    pull ⟨⟨c, current⟩, false⟩ = (some (.ok t), ⟨⟨d, some t⟩, false⟩) := by
  rw [pull_eq, h]

theorem pull_of_ended (h : c.nextToken = (.ended, d)) :
    pull ⟨⟨c, current⟩, false⟩ = (none, ⟨⟨d, current⟩, true⟩) := by
  rw [pull_eq, h]

theorem pull_of_fault (h : c.nextToken = (.fault f, d)) :
    pull ⟨⟨c, current⟩, false⟩ = (some (.error f), ⟨⟨d, current⟩, true⟩) := by
  rw [pull_eq, h]

/-- A stream that gives nothing is closed from then on. -/
theorem closed_of_pull_eq_none {s : TokenStream} (h : s.pull.1 = none) :
    s.pull.2.closed = true := by
  obtain ⟨⟨c, current⟩, _ | _⟩ := s
  · rcases hscan : c.nextToken with ⟨t | _ | f, d⟩
    · rw [pull_of_item hscan] at h
      contradiction
    · rw [pull_of_ended hscan]
    · rw [pull_of_fault hscan] at h
      contradiction
  · rfl

/-- A stream that gives a fault is closed from then on. -/
theorem closed_of_pull_eq_error {s : TokenStream} (h : s.pull.1 = some (.error f)) :
    s.pull.2.closed = true := by
  obtain ⟨⟨c, current⟩, _ | _⟩ := s
  · rcases hscan : c.nextToken with ⟨t | _ | f, d⟩
    · rw [pull_of_item hscan] at h
      simp at h
    · rw [pull_of_ended hscan]
    · rw [pull_of_fault hscan]
  · rfl

/-- Draining gives the tokens of a run, and then what draining gives behind it. -/
theorem exists_drain_of_scanned {ts : List Token} (h : Scanned c (ts.map .item) d)
    (current : Option Token) :
    ∃ current', drain ⟨⟨c, current⟩, false⟩ =
      (ts.map .ok ++ (drain ⟨⟨d, current'⟩, false⟩).1, (drain ⟨⟨d, current'⟩, false⟩).2) := by
  induction ts generalizing c current with
  | nil =>
    cases h with
    | stop => exact ⟨current, rfl⟩
  | cons t ts ih =>
    cases h with
    | scan hscan hrest =>
      obtain ⟨current', hdrain⟩ := ih hrest (some t)
      refine ⟨current', ?_⟩
      rw [drain_eq, pull_of_item hscan]
      simp only [hdrain, List.map_cons, List.cons_append]

theorem drain_of_ended (h : c.nextToken = (.ended, d)) :
    drain ⟨⟨c, current⟩, false⟩ = ([], ⟨⟨d, current⟩, true⟩) := by
  rw [drain_eq, pull_of_ended h]

theorem drain_of_fault (h : c.nextToken = (.fault f, d)) :
    drain ⟨⟨c, current⟩, false⟩ = ([.error f], ⟨⟨d, current⟩, true⟩) := by
  have hclosed : drain ⟨⟨d, current⟩, true⟩ = ([], ⟨⟨d, current⟩, true⟩) := drain_of_closed rfl
  rw [drain_eq, pull_of_fault h]
  simp only [hclosed]

/-- Draining a stream and collecting all tokens make the same scans. All but the last of them find
tokens, and the last decides how both end. -/
theorem exists_scanned_drain (c : Cursor) (current : Option Token) :
    let stream : TokenStream := ⟨⟨c, current⟩, false⟩
    ∃ (ts : List Token) (last : Pull Token) (d : Cursor),
      Scanned c (ts.map .item ++ [last]) d ∧
      (stream.drain.2.cursor = d ∧ stream.drain.2.closed = true) ∧ c.tokens.2 = d ∧
      (last = .ended ∧ stream.drain.1 = ts.map .ok ∧ c.tokens.1 = .ok ts ∨
        ∃ f, last = .fault f ∧ stream.drain.1 = ts.map .ok ++ [.error f] ∧
          c.tokens.1 = .error f) := by
  intro stream
  obtain ⟨ts, d, hrun, hd⟩ := c.exists_scanned_tokens
  obtain ⟨current', hdrain⟩ := exists_drain_of_scanned hrun current
  change stream.drain = _ at hdrain
  have htokens := hrun.scansTo.tokens_eq
  rcases hlast : d.nextToken with ⟨t | _ | f, e⟩
  · exact absurd (congrArg Prod.fst hlast) (hd t)
  · rw [drain_of_ended hlast, List.append_nil] at hdrain
    rw [Cursor.tokens_of_ended hlast] at htokens
    refine ⟨ts, .ended, e, hrun.trans (.single hlast), by rw [hdrain]; exact ⟨rfl, rfl⟩,
      by rw [htokens], .inl ⟨rfl, by rw [hdrain], ?_⟩⟩
    rw [htokens]
    simp [Except.map]
  · rw [drain_of_fault hlast] at hdrain
    rw [Cursor.tokens_of_fault hlast] at htokens
    exact ⟨ts, .fault f, e, hrun.trans (.single hlast), by rw [hdrain]; exact ⟨rfl, rfl⟩,
      by rw [htokens], .inr ⟨f, rfl, by rw [hdrain], by rw [htokens]; rfl⟩⟩

end TokenStream

/-! ## The two ways agree -/

theorem map_ok_inj {ts us : List Token} :
    ts.map (Except.ok : Token → Except Fault Token) = us.map .ok ↔ ts = us :=
  List.map_inj_right fun _ _ h => Except.ok.inj h

theorem map_ok_ne (ts us : List Token) (f : Fault) :
    ts.map (Except.ok : Token → Except Fault Token) ≠ us.map .ok ++ [.error f] := by
  intro h
  have hmem : (.error f : Except Fault Token) ∈ ts.map .ok := by
    rw [h]
    simp
  simp at hmem

/-- Draining a stream gives tokens alone exactly if collecting gives these tokens, and tokens and a
fault behind them exactly if collecting gives that fault; both leave the cursor at the same place.
The token that was current before plays no part, since a scan that finds a token replaces it before
the slot is looked at. A stream gives nothing only when it is closed; once it has given nothing or a
fault, it gives nothing more and leaves its cursor alone, whatever the cursor has still to give. -/
theorem TokenStream.drain_iff_tokens (c : Cursor) (current : Option Token) :
    let session : Session := ⟨c, current⟩
    let stream : TokenStream := ⟨session, false⟩
    (∀ ts, stream.drain.1 = ts.map .ok ↔ c.tokens.1 = .ok ts) ∧
    (∀ f, (∃ ts : List Token, stream.drain.1 = ts.map .ok ++ [.error f]) ↔
      c.tokens.1 = .error f) ∧
    (stream.drain.2.cursor = c.tokens.2 ∧ stream.drain.2.closed = true) ∧
    (session.collect.1 = c.tokens.1 ∧ session.collect.2.cursor = c.tokens.2) ∧
    (∀ t, session.advance.1 = .item t →
      session.advance.2.current = some t ∧ stream.pull.1 = some (.ok t)) ∧
    (∀ s : TokenStream, s.pull.1 = none → s.pull.2.closed = true) ∧
    (∀ (s : TokenStream) n, (s.pull.1 = none ∨ ∃ f, s.pull.1 = some (.error f)) →
      s.pull.2.pulls n = (List.replicate n none, s.pull.2)) := by
  intro session stream
  obtain ⟨ts, last, d, -, ⟨hcursor, hclosed⟩, htokens, hend⟩ := exists_scanned_drain c current
  refine ⟨?_, ?_, ⟨by rw [hcursor, htokens], hclosed⟩, session.collect_eq_tokens, ?_,
    fun s => closed_of_pull_eq_none, ?_⟩
  · intro us
    rcases hend with ⟨-, hdrain, hresult⟩ | ⟨f, -, hdrain, hresult⟩
    · rw [hdrain, hresult, map_ok_inj, Except.ok.injEq]
    · rw [hdrain, hresult]
      exact iff_of_false (map_ok_ne us ts f).symm (by simp)
  · intro f
    rcases hend with ⟨-, hdrain, hresult⟩ | ⟨g, -, hdrain, hresult⟩
    · rw [hdrain, hresult]
      exact iff_of_false (fun ⟨us, h⟩ => map_ok_ne ts us f h) (by simp)
    · rw [hdrain, hresult, Except.error.injEq]
      constructor
      · rintro ⟨us, h⟩
        simpa using congrArg List.getLast? h
      · rintro rfl
        exact ⟨ts, rfl⟩
  · intro t h
    refine ⟨Session.current_advance_of_item h, ?_⟩
    rw [session.fst_advance] at h
    rw [pull_of_item (Prod.ext h rfl)]
  · rintro s n (hnone | ⟨f, hf⟩)
    · exact pulls_of_closed (closed_of_pull_eq_none hnone) n
    · exact pulls_of_closed (closed_of_pull_eq_error hf) n

end ArithLex
