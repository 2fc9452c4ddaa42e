import Mathlib.Data.List.DropRight
import ArithLex.Proofs.Handover
import ArithLex.Proofs.OneScan

/-!
# Progress

Scanning on behind every result comes to an end. What a cursor has in stock for scans are the
signals to come and the pending byte, unless it is a blank (`Cursor.stock`); only their kinds count.
Each result has its price: a token or an illegal byte costs a byte, a read error a failure, and an
end of the input costs an end of input. A scan pays the price of its result out of the stock, unless
it meets the end of the input and leaves nothing (`Cursor.pays_nextToken`). Hence the prices of the
results of a run are found in the script, in the same order, up to the ends of input that come when
nothing is left (`Session.exists_paid`).

The main result is `Session.advances_progress`, for every script and every number of scans.
-/

namespace ArithLex

/-! ## Stock -/

/-- The kind of a signal. -/
inductive Signal.Kind where
  | byte
  | finish
  | failure
deriving DecidableEq, Repr

/-- The kind of a signal. -/
def Signal.kind : Signal → Kind
  | byte _ => .byte
  | finish => .finish
  | failure _ _ => .failure

theorem Signal.map_kind_map_byte (bytes : List Byte) :
    (bytes.map byte).map kind = List.replicate bytes.length Kind.byte := by
  rw [List.map_map, List.eq_replicate_iff]
  simp [kind]

namespace Cursor

/-- The kinds of what is left for scans. A blank that is pending is worth nothing. -/
def stock (c : Cursor) : List Signal.Kind :=
  (c.pending.toList.filter (!·.isBlank)).map (fun _ => .byte) ++ c.rest.signals.map Signal.kind

@[simp] theorem stock_unchunked (c : Cursor) : c.unchunked.stock = c.stock := by
  simp [stock, unchunked]

theorem stock_facing (name : String) (line : UInt32) (signals : List Signal) :
    (facing name line signals).stock = signals.map Signal.kind := by
  rw [stock, Script.signals_unchunked]
  rfl

theorem stock_ofScript (name : String) (script : Script) :
    (ofScript name script).stock = script.signals.map Signal.kind := rfl

/-- A pending byte adds at most a byte to the stock. -/
theorem stock_pending_sublist (name : String) (b : Byte) (line : UInt32) (rest : Script) :
    (stock ⟨name, some b, line, rest⟩).Sublist (.byte :: stock ⟨name, none, line, rest⟩) := by
  cases hb : b.isBlank with
  | true => simp [stock, hb]
  | false => simp [stock, hb]

/-- The lexemes ahead and what is behind the barrier are in stock. -/
theorem lexemes_sublist_stock (c : Cursor) :
    (List.replicate c.lexemes.length Signal.Kind.byte ++
      (Signal.fromBarrier c.rest.signals).map Signal.kind).Sublist c.stock := by
  obtain ⟨name, pending, line, rest⟩ := c
  simp only [lexemes, bytesAhead, stock]
  generalize rest.signals = signals
  have hsignals : signals.map Signal.kind =
      List.replicate (Signal.bytesAhead signals).length .byte ++
        (Signal.fromBarrier signals).map Signal.kind := by
    rw [← Signal.map_kind_map_byte, ← List.map_append, Signal.bytesAhead_append_fromBarrier]
  -- a blank that is pending is passed over with the blanks behind it
  have hblanks : (List.replicate ((Signal.bytesAhead signals).dropWhile Byte.isBlank).length
      Signal.Kind.byte ++ (Signal.fromBarrier signals).map Signal.kind).Sublist
        (signals.map Signal.kind) := by
    have hdrop := (Signal.bytesAhead signals).dropWhile_sublist Byte.isBlank
    rw [hsignals]
    exact (List.replicate_sublist_replicate _ |>.2 hdrop.length_le).append (.refl _)
  rcases pending with _ | b
  · exact hblanks
  · cases hb : b.isBlank with
    | true => simpa [hb] using hblanks
    | false => simp [hb, hsignals, List.replicate_succ]

/-- Where nothing is in stock, a scan meets the end of the input and does not move the line. -/
theorem nextToken_of_stock_eq_nil {c : Cursor} (h : c.stock = []) :
    c.nextToken.1 = .ended ∧ c.nextToken.2.line = c.line := by
  have hscan : c.unchunked.nextToken = (.ended, facing c.name c.line []) := by
    obtain ⟨name, pending, line, rest⟩ := c
    simp only [stock, List.append_eq_nil_iff, List.map_eq_nil_iff] at h
    obtain ⟨hpending, hsignals⟩ := h
    rw [unchunked]
    simp only [hsignals]
    rcases pending with _ | b
    · exact nextToken_nil name line
    · have hb : b.isBlank = true := by simpa using hpending
      rw [nextToken_eq, read_pending]
      simp only [hb, if_true]
      exact nextToken_nil name line
  rw [c.nextToken_unchunked] at hscan
  exact ⟨congrArg Prod.fst hscan, congrArg (fun r => r.2.line) hscan⟩

end Cursor

/-! ## Prices -/

/-- The kind of signal that a scan with this result has used up. -/
def Pull.price : Pull Token → Signal.Kind
  | item _ => .byte
  | ended => .finish
  | fault f =>
    match f.category with
    | .lexical => .byte
    | .external => .failure

/-- A scan pays for its result, unless it meets the end of the input and leaves nothing. -/
theorem Cursor.pays_nextToken (c : Cursor) :
    (c.nextToken.1.price :: c.nextToken.2.stock).Sublist c.stock ∨
      c.nextToken.1 = .ended ∧ c.nextToken.2.stock = [] := by
  have hstock := c.lexemes_sublist_stock
  -- the ways a scan can go speak of the cursor taken apart, which has the same in stock
  have htakes := c.takes_nextToken
  rw [← c.nextToken.2.stock_unchunked]
  have hfst : c.nextToken.1 = c.unchunked.nextToken.1 := by rw [c.nextToken_unchunked]
  have hsnd : c.nextToken.2.unchunked = c.unchunked.nextToken.2 := by rw [c.nextToken_unchunked]
  rw [hfst, hsnd]
  generalize c.unchunked.nextToken = r at htakes
  cases htakes with
  | nothing line h =>
    rw [h] at hstock
    rcases Signal.fromBarrier_cases c.rest.signals with hnil | ⟨rest, hfinish⟩ |
      ⟨e, he, rest, hfailure⟩
    · rw [hnil]
      exact .inr ⟨rfl, rfl⟩
    · rw [hfinish] at hstock ⊢
      rw [List.tail_cons, stock_facing]
      exact .inl hstock
    · rw [hfailure] at hstock ⊢
      rw [List.tail_cons, stock_facing]
      exact .inl hstock
  | @single b after line h hblank hdigit =>
    rw [h] at hstock
    have hpaid : (Signal.Kind.byte :: (facing c.name line
        (after.map .byte ++ Signal.fromBarrier c.rest.signals)).stock).Sublist c.stock := by
      rw [stock_facing, List.map_append, Signal.map_kind_map_byte]
      exact hstock
    rcases Operator.ofByte? b with _ | o
    · exact .inl hpaid
    · exact .inl hpaid
  | @digitsByte digits after b line h hne hdigits hb =>
    -- the digits pay, and the byte behind them may go back in stock
    have hpending := stock_pending_sublist c.name b line
      (Script.unchunked (after.map .byte ++ Signal.fromBarrier c.rest.signals))
    have hlength : after.length + 2 ≤ c.lexemes.length := by
      have hpos := List.length_pos_of_ne_nil hne
      rw [h, List.length_append, List.length_cons]
      omega
    have hbytes := (List.replicate_sublist_replicate Signal.Kind.byte).2 hlength
    rw [stock_facing, List.map_append, Signal.map_kind_map_byte] at hpending
    exact .inl ((hpending.cons_cons _).trans ((hbytes.append (.refl _)).trans hstock))
  | @digitsBarrier digits line h hne hdigits =>
    have hone : [Signal.Kind.byte].Sublist (List.replicate c.lexemes.length .byte) := by
      have hpos := List.length_pos_of_ne_nil hne
      rw [← h] at hpos
      exact (List.replicate_sublist_replicate Signal.Kind.byte).2 hpos
    rcases Signal.fromBarrier_cases c.rest.signals with hnil | ⟨rest, hfinish⟩ |
      ⟨e, he, rest, hfailure⟩
    · rw [hnil] at hstock ⊢
      exact .inl ((hone.append (.refl _)).trans hstock)
    · rw [hfinish] at hstock ⊢
      have hbehind := List.sublist_cons_self Signal.Kind.finish (rest.map Signal.kind)
      rw [List.tail_cons, stock_facing]
      exact .inl ((hone.append hbehind).trans hstock)
    · rw [hfailure] at hstock ⊢
      rw [List.tail_cons, stock_facing]
      exact .inl ((List.sublist_append_right _ _).trans hstock)

/-! ## Runs -/

namespace Session

/-- Scans pay for their results, up to the ends of the input that come when nothing is left. -/
theorem exists_paid (s : Session) (n : Nat) :
    ∃ paid m, (s.advances n).1 = paid ++ List.replicate m .ended ∧
      (paid.map Pull.price ++ (s.advances n).2.cursor.stock).Sublist s.cursor.stock ∧
      (m ≠ 0 → (s.advances n).2.cursor.stock = []) := by
  induction n generalizing s with
  | zero => exact ⟨[], 0, rfl, .refl _, fun h => absurd rfl h⟩
  | succ n ih =>
    obtain ⟨paid, m, hresults, hpaid, hrest⟩ := ih s.advance.2
    have hpays := s.cursor.pays_nextToken
    rw [← fst_advance, ← cursor_advance] at hpays
    rcases hpays with hpays | ⟨hended, hstock⟩
    · refine ⟨s.advance.1 :: paid, m, ?_, (hpaid.cons_cons _).trans hpays, hrest⟩
      simp only [advances, hresults, List.cons_append]
    · -- nothing is left, so that no more is paid for
      rw [hstock, List.sublist_nil, List.append_eq_nil_iff, List.map_eq_nil_iff] at hpaid
      obtain ⟨rfl, hnone⟩ := hpaid
      refine ⟨[], m + 1, ?_, ?_, fun _ => hnone⟩
      · simp only [advances, hresults, hended, List.nil_append, List.replicate_succ]
      · simp only [advances, hnone]
        exact List.nil_sublist _

/-- As many scans as there are signals in stock leave nothing. -/
theorem stock_advances_eq_nil {s : Session} {n : Nat} (h : s.cursor.stock.length ≤ n) :
    (s.advances n).2.cursor.stock = [] := by
  obtain ⟨paid, m, hresults, hpaid, hrest⟩ := s.exists_paid n
  by_cases hm : m = 0
  · have hlength := s.length_advances n
    have hle := hpaid.length_le
    rw [hresults, hm, List.replicate_zero, List.append_nil] at hlength
    rw [List.length_append, List.length_map] at hle
    exact List.length_eq_zero_iff.1 (by omega)
  · exact hrest hm

/-- Where nothing is left, a scan meets the end of the input and changes nothing. -/
theorem advance_of_stock_eq_nil {s : Session} (h : s.cursor.stock = []) :
    s.advance.1 = .ended ∧ s.advance.2.line = s.line ∧ s.advance.2.current = s.current := by
  obtain ⟨hresult, hline⟩ := Cursor.nextToken_of_stock_eq_nil h
  have hended : s.advance.1 = .ended := s.fst_advance.trans hresult
  refine ⟨hended, ?_, current_advance_of_not_item (by rw [hended]; simp)⟩
  rw [line, line, cursor_advance, hline]

end Session

/-- The number of ends of the input that some other result follows. -/
def interimEnds (results : List (Pull Token)) : Nat :=
  (results.rdropWhile (· = .ended)).count .ended

theorem interimEnds_append_replicate_le (results : List (Pull Token)) (m : Nat) :
    interimEnds (results ++ List.replicate m .ended) ≤ results.count .ended := by
  have hdrop : (results ++ List.replicate m Pull.ended).rdropWhile (· = Pull.ended) =
      results.rdropWhile (· = Pull.ended) := by
    induction m with
    | zero => rw [List.replicate_zero, List.append_nil]
    | succ m ih =>
      rw [List.replicate_succ', ← List.append_assoc, List.rdropWhile_concat_pos _ _ _ (by simp), ih]
  rw [interimEnds, hdrop]
  exact (List.rdropWhile_prefix _ _).sublist.count_le _

namespace Session

/-- Tokens, illegal bytes and read errors are all paid for. -/
theorem count_price_le (s : Session) (n : Nat) {k : Signal.Kind} (hk : k ≠ .finish) :
    ((s.advances n).1.map Pull.price).count k ≤ s.cursor.stock.count k := by
  obtain ⟨paid, m, hresults, hpaid, -⟩ := s.exists_paid n
  have hprices : (paid.map Pull.price).Sublist s.cursor.stock :=
    (List.sublist_append_left _ _).trans hpaid
  have hended : Pull.ended.price = .finish := rfl
  rw [hresults, List.map_append, List.map_replicate, hended, List.count_append,
    List.count_replicate, if_neg (by simpa using hk.symm), Nat.add_zero]
  exact hprices.count_le k

/-- So are the ends of the input, as far as other results follow. -/
theorem interimEnds_le (s : Session) (n : Nat) :
    interimEnds (s.advances n).1 ≤ s.cursor.stock.count .finish := by
  obtain ⟨paid, m, hresults, hpaid, -⟩ := s.exists_paid n
  have hprices : (paid.map Pull.price).Sublist s.cursor.stock :=
    (List.sublist_append_left _ _).trans hpaid
  have hends : paid.count .ended ≤ (paid.map Pull.price).count (Pull.price .ended) :=
    List.count_le_count_map
  rw [hresults]
  calc interimEnds (paid ++ List.replicate m .ended)
      ≤ paid.count .ended := interimEnds_append_replicate_le paid m
    _ ≤ (paid.map Pull.price).count .finish := hends
    _ ≤ s.cursor.stock.count .finish := hprices.count_le _

end Session

/-- The tokens of a run are paid for. -/
theorem Cursor.Scanned.length_le {c d : Cursor} {ts : List Token} {rs : List (Pull Token)}
    (h : Scanned c (ts.map .item ++ rs) d) : ts.length ≤ c.stock.count .byte := by
  obtain ⟨hresults, -⟩ := Session.advances_of_scanned (s := Session.begin c) h
  have hpaid := (Session.begin c).count_price_le (ts.map Pull.item ++ rs).length
    (show Signal.Kind.byte ≠ .finish by decide)
  have htokens : (ts.map Pull.item).map Pull.price = List.replicate ts.length .byte := by
    rw [List.map_map, List.eq_replicate_iff]
    simp [Pull.price]
  rw [hresults, List.map_append, htokens, List.count_append, List.count_replicate_self] at hpaid
  exact (Nat.le_add_right _ _).trans hpaid

/-! ## Scripts -/

/-- The data bytes of an event. -/
def Event.bytes : Event → List Byte
  | data bytes => bytes
  | finish => []
  | failure _ => []

/-- Whether an event is a failure that is reported. -/
def Event.isReported : Event → Bool
  | data _ => false
  | finish => false
  | failure e => !e.isRetried

/-- The stock of a script are its data bytes, its ends of input and the failures that are
reported. -/
theorem Script.count_kind_signals (script : Script) :
    (script.signals.map Signal.kind).count .byte = (script.flatMap Event.bytes).length ∧
      (script.signals.map Signal.kind).count .finish = script.count .finish ∧
      (script.signals.map Signal.kind).count .failure = script.countP Event.isReported := by
  induction script with
  | nil => exact ⟨rfl, rfl, rfl⟩
  | cons e script ih =>
    obtain ⟨hbytes, hfinishes, hfailures⟩ := ih
    rw [signals_cons, List.map_append, List.count_append, List.count_append, List.count_append,
      hbytes, hfinishes, hfailures, List.flatMap_cons, List.length_append, List.count_cons,
      List.countP_cons]
    rcases e with bytes | _ | e
    · simp only [Event.signals_data, Signal.map_kind_map_byte]
      simp [Event.bytes, Event.isReported, List.count_replicate]
    · simp [Event.bytes, Event.isReported, Signal.kind, Nat.add_comm]
    · cases he : e.isRetried with
      | true => simp [Event.signals_failure_of_isRetried he, Event.bytes, Event.isReported, he]
      | false =>
        simp [Event.signals_failure he, Event.bytes, Event.isReported, Signal.kind, he,
          Nat.add_comm]

theorem Signal.Kind.length_eq_count (kinds : List Signal.Kind) :
    kinds.length = kinds.count .byte + kinds.count .finish + kinds.count .failure := by
  induction kinds with
  | nil => rfl
  | cons k kinds ih =>
    rw [List.length_cons, List.count_cons, List.count_cons, List.count_cons, ih]
    cases k <;> simp <;> omega

/-- The stock at the start of a script. -/
theorem Cursor.count_stock_ofScript (name : String) (script : Script) :
    let stock := (ofScript name script).stock
    stock.count .byte = (script.flatMap Event.bytes).length ∧
      stock.count .finish = script.count .finish ∧
      stock.count .failure = script.countP Event.isReported ∧
      stock.length = (script.flatMap Event.bytes).length + script.count .finish +
        script.countP Event.isReported := by
  obtain ⟨hbytes, hfinishes, hfailures⟩ := script.count_kind_signals
  intro stock
  have hstock : stock = script.signals.map Signal.kind := stock_ofScript name script
  rw [Signal.Kind.length_eq_count stock, hstock, hbytes, hfinishes, hfailures]
  exact ⟨rfl, rfl, rfl, rfl⟩

/-- Progress of scans and resumptions. Over a script with `bytes` data bytes, `failures` failures
that are not retried and `finishes` ends of input, take any number of scans and go on behind every
result. Tokens and illegal bytes together are at most as many as the data bytes, and read errors at
most as many as the failures. Ends of the input that some other result follows are at most as many
as the ends of input of the script. Once `bytes + failures + finishes` scans are made, every other
scan meets the end of the input and changes neither the line nor the current token.

Hence reading all tokens ends, and so does draining a token stream: both make the same scans, whose
results are at most `bytes` tokens and then the end of the input or a fault. -/
theorem Session.advances_progress (name : String) (script : Script) (n : Nat) :
    let bytes := (script.flatMap Event.bytes).length
    let failures := script.countP Event.isReported
    let finishes := script.count .finish
    let c := Cursor.ofScript name script
    let results := ((begin c).advances n).1
    let left := ((begin c).advances n).2
    (results.map Pull.price).count .byte ≤ bytes ∧
    (results.map Pull.price).count .failure ≤ failures ∧
    interimEnds results ≤ finishes ∧
    (bytes + failures + finishes ≤ n →
      left.advance.1 = .ended ∧ left.advance.2.line = left.line ∧
        left.advance.2.current = left.current) ∧
    ∃ (ts : List Token) (last : Pull Token) (d : Cursor),
      Cursor.Scanned c (ts.map .item ++ [last]) d ∧ ts.length ≤ bytes ∧
      ((TokenStream.ofCursor c).drain.2.cursor = d ∧
        (TokenStream.ofCursor c).drain.2.closed = true) ∧ c.tokens.2 = d ∧
      (last = .ended ∧ (TokenStream.ofCursor c).drain.1 = ts.map .ok ∧ c.tokens.1 = .ok ts ∨
        ∃ f, last = .fault f ∧ (TokenStream.ofCursor c).drain.1 = ts.map .ok ++ [.error f] ∧
          c.tokens.1 = .error f) := by
  intro bytes failures finishes c results left
  obtain ⟨hbytes, hfinishes, hfailures, hlength⟩ := Cursor.count_stock_ofScript name script
  refine ⟨?_, ?_, ?_, ?_, ?_⟩
  · exact ((begin c).count_price_le n (by decide)).trans_eq hbytes
  · exact ((begin c).count_price_le n (by decide)).trans_eq hfailures
  · exact ((begin c).interimEnds_le n).trans_eq hfinishes
  · intro hn
    apply advance_of_stock_eq_nil
    apply stock_advances_eq_nil
    calc c.stock.length
        = bytes + finishes + failures := hlength
      _ ≤ n := by omega
  · obtain ⟨ts, last, d, hrun, hends⟩ := TokenStream.exists_scanned_drain c none
    exact ⟨ts, last, d, hrun, hrun.length_le.trans_eq hbytes, hends⟩

end ArithLex
