import Mathlib
import ArithLex.Proofs.Drivers
import ArithLex.Proofs.ListingOutcome

/-!
# Listings as a prefix code

Different tokens have different texts (`Token.text_injective`), and no text holds a line feed. The
lines of a listing are therefore read back by cutting it at its line feeds, whatever follows it
(`Listing.completeLines_bytesOf_append`), and one listing begins with another exactly if its tokens
do (`Listing.bytesOf_prefix_iff`). Where a listing is cut short, what has no line feed behind it is
not a line (`Listing.exists_take_bytesOf`).

The main result is `Listing.prefix_code`, for all lists of tokens and for the listings of all
inputs.
-/

namespace ArithLex

/-! ## Texts -/

theorem utf8_injective : Function.Injective utf8 := by
  intro s t h
  rw [← String.toByteArray_inj, ← String.utf8Encode_toList, ← String.utf8Encode_toList]
  exact congrArg List.toByteArray h

/-- The class of a token stands in its text behind the first word, up to the comma if there is
one. -/
theorem Token.takeWhile_drop_text (t : Token) :
    (t.text.toList.drop 6).takeWhile (· ≠ ',') = t.className.toList := by
  rcases t with o | v
  · cases o <;> decide
  · simp only [text, className, String.toList_append]
    rfl

theorem Token.className_op_ne (o : Operator) (v : Int64) :
    (op o).className ≠ (lit v).className := by
  change o.name ≠ "IntLit"
  cases o <;> decide

theorem Token.text_injective : Function.Injective text := by
  intro t u h
  have hclass : t.className = u.className := by
    rw [← String.toList_inj, ← takeWhile_drop_text, h, takeWhile_drop_text]
  rcases t with o | v <;> rcases u with p | w
  · cases o <;> cases p <;> first | rfl | exact absurd hclass (by decide)
  · exact absurd hclass (className_op_ne o w)
  · exact absurd hclass.symm (className_op_ne p v)
  · -- behind the class there are only the values, in decimal
    have hrepr : v.toInt.repr = w.toInt.repr := (String.append_right_inj _).1 h
    rw [Int64.toInt_inj.1 (Int.repr_injective hrepr)]

/-! ## Lines read back -/

namespace Listing

/-- The lines of a text that are complete: those with a line feed behind them. -/
def completeLines (bytes : List Byte) : List (List Byte) :=
  (bytes.splitOn Byte.newline).dropLast

theorem completeLines_of_newline_not_mem {bytes : List Byte} (h : Byte.newline ∉ bytes) :
    completeLines bytes = [] := by
  rw [completeLines, List.splitOn_eq_singleton h, List.dropLast_singleton]

/-- A line that is complete stands in front of the lines behind it. -/
theorem completeLines_line_append (t : Token) (bytes : List Byte) :
    completeLines (utf8 t.line ++ bytes) = utf8 t.text :: completeLines bytes := by
  have hline : utf8 t.line ++ bytes = utf8 t.text ++ Byte.newline :: bytes := by
    rw [Token.line, utf8_append, List.append_assoc]
    rfl
  have htext := newline_not_mem_utf8 t.newline_not_mem_text
  rw [completeLines, hline, List.splitOn_append_cons_self_of_not_mem htext,
    List.dropLast_cons_of_ne_nil (List.splitOn_ne_nil _ _)]
  rfl

/-- The lines of a listing are read back, whatever follows it. -/
theorem completeLines_bytesOf_append (ts : List Token) (bytes : List Byte) :
    completeLines (bytesOf ts ++ bytes) = ts.map (utf8 ·.text) ++ completeLines bytes := by
  induction ts with
  | nil => rfl
  | cons t ts ih =>
    rw [bytesOf_cons, List.append_assoc, completeLines_line_append, ih, List.map_cons,
      List.cons_append]

theorem bytesOf_append (ts us : List Token) : bytesOf (ts ++ us) = bytesOf ts ++ bytesOf us := by
  simp [bytesOf]

/-- What begins with a listing has its tokens' lines for its first complete lines. -/
theorem bytesOf_prefix_bytesOf_append {ts us : List Token} {bytes : List Byte}
    (hbytes : Byte.newline ∉ bytes) (h : bytesOf ts <+: bytesOf us ++ bytes) : ts <+: us := by
  obtain ⟨behind, hsplit⟩ := h
  have hlines := congrArg completeLines hsplit
  rw [completeLines_bytesOf_append, completeLines_bytesOf_append,
    completeLines_of_newline_not_mem hbytes, List.append_nil] at hlines
  have hinj : Function.Injective fun t : Token => utf8 t.text :=
    utf8_injective.comp Token.text_injective
  exact (List.prefix_map_iff_of_injective hinj).1 ⟨_, hlines⟩

/-- One listing begins with another exactly if its tokens do. -/
theorem bytesOf_prefix_iff (ts us : List Token) : bytesOf ts <+: bytesOf us ↔ ts <+: us := by
  constructor
  · intro h
    exact bytesOf_prefix_bytesOf_append List.not_mem_nil (by rwa [List.append_nil])
  · rintro ⟨vs, rfl⟩
    exact ⟨bytesOf vs, (bytesOf_append ts vs).symm⟩

theorem bytesOf_injective : Function.Injective bytesOf := by
  intro ts us h
  have hts : ts <+: us := (bytesOf_prefix_iff ts us).1 (by rw [h])
  have hus : us <+: ts := (bytesOf_prefix_iff us ts).1 (by rw [h])
  exact hts.eq_of_length (Nat.le_antisymm hts.length_le hus.length_le)

/-! ## Listings cut short -/

/-- The first bytes of a listing are the listing of the first tokens, as many as fit, and less than
a line behind it. -/
theorem exists_take_bytesOf (ts : List Token) (limit : Nat) :
    ∃ us bytes, us <+: ts ∧ Byte.newline ∉ bytes ∧
      (bytesOf ts).take limit = bytesOf us ++ bytes := by
  induction ts generalizing limit with
  | nil => exact ⟨[], [], List.nil_prefix, List.not_mem_nil, List.take_nil⟩
  | cons t ts ih =>
    by_cases hfits : (utf8 t.line).length ≤ limit
    · obtain ⟨us, bytes, hus, hbytes, htake⟩ := ih (limit - (utf8 t.line).length)
      refine ⟨t :: us, bytes, List.cons_prefix_cons.2 ⟨rfl, hus⟩, hbytes, ?_⟩
      rw [bytesOf_cons, List.take_append, List.take_of_length_le hfits, htake, bytesOf_cons,
        List.append_assoc]
    · -- the cut lies in the first line, before its line feed
      have hline : utf8 t.line = utf8 t.text ++ [Byte.newline] := utf8_append t.text "\n"
      have hlength : limit ≤ (utf8 t.text).length := by
        rw [hline, List.length_append, List.length_singleton] at hfits
        omega
      refine ⟨[], (utf8 t.text).take limit, List.nil_prefix, ?_, ?_⟩
      · intro hmem
        exact newline_not_mem_utf8 t.newline_not_mem_text (List.mem_of_mem_take hmem)
      · rw [bytesOf_cons, hline, List.append_assoc, List.take_append_of_le_length hlength]
        rfl

/-- The complete lines in the first bytes of a listing are those of the longest prefix of its tokens
that fits. -/
theorem exists_completeLines_take (ts : List Token) (limit : Nat) :
    ∃ us, us <+: ts ∧ completeLines ((bytesOf ts).take limit) = us.map (utf8 ·.text) ∧
      ∀ vs, vs <+: ts → ((bytesOf vs).length ≤ limit ↔ vs <+: us) := by
  obtain ⟨us, bytes, hus, hbytes, htake⟩ := exists_take_bytesOf ts limit
  refine ⟨us, hus, ?_, fun vs hvs => ⟨fun hlimit => ?_, fun hprefix => ?_⟩⟩
  · rw [htake, completeLines_bytesOf_append, completeLines_of_newline_not_mem hbytes,
      List.append_nil]
  · have hcut : bytesOf vs <+: (bytesOf ts).take limit :=
      List.prefix_take_iff.2 ⟨(bytesOf_prefix_iff vs ts).2 hvs, hlimit⟩
    rw [htake] at hcut
    exact bytesOf_prefix_bytesOf_append hbytes hcut
  · calc (bytesOf vs).length
        ≤ (bytesOf us).length := ((bytesOf_prefix_iff vs us).2 hprefix).length_le
      _ ≤ ((bytesOf ts).take limit).length := by simp [htake]
      _ ≤ limit := List.length_take_le _ _

/-! ## What a listing writes -/

/-- The tokens of the input at a path, given what opening it gave: those that a stream gives up to
the end of the input or the first fault. -/
def inputTokens (path : String) (opened : Except IoFailure Script) : List Token :=
  match opened with
  | .error _ => []
  | .ok script =>
    (TokenStream.ofCursor (.ofScript path script)).drain.1.filterMap Except.toOption

/-- A scan that finds no token ends a stream. -/
theorem drain_of_not_item {c : Cursor} (h : ∀ t, c.nextToken.1 ≠ .item t)
    (current : Option Token) :
    (TokenStream.drain ⟨⟨c, current⟩, false⟩).1.filterMap Except.toOption = [] := by
  rcases hscan : c.nextToken with ⟨t | _ | f, d⟩
  · exact absurd (congrArg Prod.fst hscan) (h t)
  · rw [TokenStream.drain_of_ended hscan]
    rfl
  · rw [TokenStream.drain_of_fault hscan]
    rfl

/-- The tokens of an input are those found before the first scan that finds none. -/
theorem inputTokens_of_scanned {path : String} {script : Script} {ts : List Token} {d : Cursor}
    (hrun : Cursor.Scanned (.ofScript path script) (ts.map .item) d)
    (hd : ∀ t, d.nextToken.1 ≠ .item t) : inputTokens path (.ok script) = ts := by
  have hok : (ts.map Except.ok : List (Except Fault Token)).filterMap Except.toOption = ts := by
    rw [List.filterMap_map]
    exact List.filterMap_some
  obtain ⟨current, hdrain⟩ := TokenStream.exists_drain_of_scanned hrun none
  rw [inputTokens, TokenStream.ofCursor, Session.begin, hdrain, List.filterMap_append, hok,
    drain_of_not_item hd, List.append_nil]

/-- A scan that finds no token ends a listing, and nothing more is written. -/
theorem held_continueFrom_of_not_item {c : Cursor} (h : ∀ t, c.nextToken.1 ≠ .item t) (sink : Sink)
    (count : Nat) (log : Array Record) : (continueFrom c sink count log).sink.held = sink.held := by
  rw [continueFrom_eq]
  rcases hscan : c.nextToken with ⟨t | _ | f, d⟩
  · exact absurd (congrArg Prod.fst hscan) (h t)
  · rcases hflush : sink.flushFailure with _ | e <;> simp [Sink.flush, hflush]
  · rfl

/-- A listing writes the lines of the tokens of its input, as far as there is room. -/
theorem held_ofInput (path : String) (opened : Except IoFailure Script) (sink : Sink) :
    (ofInput path opened sink).sink.held =
      (sink.write (bytesOf (inputTokens path opened))).2.held := by
  rcases opened with e | script
  · simp [ofInput, inputTokens]
  · obtain ⟨ts, d, hrun, hd⟩ := (Cursor.ofScript path script).exists_scanned_tokens
    obtain ⟨log, hlog⟩ := exists_continueFrom_of_scansTo hrun.scansTo sink 0 #[.opened path]
    rw [ofInput_ok, hlog, inputTokens_of_scanned hrun hd]
    by_cases hroom : sink.hasRoom (bytesOf ts) = true
    · rw [if_pos hroom, held_continueFrom_of_not_item hd]
    · rw [if_neg hroom]

/-- Into an empty sink, these are the first bytes of the lines, as many as the sink can take. -/
theorem toList_held_ofInput (path : String) (opened : Except IoFailure Script) {sink : Sink}
    (h : sink.held = #[]) :
    (ofInput path opened sink).sink.held.toList =
      let all := bytesOf (inputTokens path opened)
      all.take (sink.capacity.getD all.length) := by
  rw [held_ofInput, Sink.toList_held_write_of_held_eq_empty h]

/-- An empty sink without a limit takes them all. -/
theorem toList_held_ofInput_unlimited (path : String) (opened : Except IoFailure Script)
    {sink : Sink} (h : sink.held = #[]) (hcapacity : sink.capacity = none) :
    (ofInput path opened sink).sink.held.toList = bytesOf (inputTokens path opened) := by
  rw [toList_held_ofInput path opened h, hcapacity]
  exact List.take_length

/-- Listings are a prefix code: one begins with another exactly if its tokens do, so that a listing
tells its tokens. The complete lines in its first bytes are the lines of a prefix of the tokens, of
the longest that fits. So two inputs that are listed without a limit give the same bytes exactly if
they have the same tokens, and whatever the room, a listing shows no complete line that is not the
line of a token of its input at that place. -/
theorem prefix_code (ts us : List Token) :
    (bytesOf ts <+: bytesOf us ↔ ts <+: us) ∧
    (bytesOf ts = bytesOf us ↔ ts = us) ∧
    (∀ limit, ∃ vs, vs <+: ts ∧ completeLines ((bytesOf ts).take limit) = vs.map (utf8 ·.text) ∧
      ∀ ws, ws <+: ts → ((bytesOf ws).length ≤ limit ↔ ws <+: vs)) ∧
    (∀ path path' opened opened' (sink sink' : Sink),
      sink.held = #[] → sink.capacity = none → sink'.held = #[] → sink'.capacity = none →
      let out := (ofInput path opened sink).sink.held.toList
      let out' := (ofInput path' opened' sink').sink.held.toList
      out = bytesOf (inputTokens path opened) ∧
        (out = out' ↔ inputTokens path opened = inputTokens path' opened')) ∧
    ∀ path opened (sink : Sink), sink.held = #[] →
      ∃ vs, vs <+: inputTokens path opened ∧
        completeLines (ofInput path opened sink).sink.held.toList = vs.map (utf8 ·.text) := by
  refine ⟨bytesOf_prefix_iff ts us, bytesOf_injective.eq_iff, exists_completeLines_take ts, ?_, ?_⟩
  · intro path path' opened opened' sink sink' hheld hcapacity hheld' hcapacity' out out'
    have hout : out = bytesOf (inputTokens path opened) :=
      toList_held_ofInput_unlimited path opened hheld hcapacity
    have hout' : out' = bytesOf (inputTokens path' opened') :=
      toList_held_ofInput_unlimited path' opened' hheld' hcapacity'
    rw [hout, hout']
    exact ⟨rfl, bytesOf_injective.eq_iff⟩
  · intro path opened sink hheld
    rw [toList_held_ofInput path opened hheld]
    obtain ⟨vs, hvs, hlines, -⟩ := exists_completeLines_take (inputTokens path opened) _
    exact ⟨vs, hvs, hlines⟩

-- A cut in the middle of a number shows the lines in front of it only.
example : completeLines ((bytesOf [.op .plus, .lit 123]).take 33) = [utf8 "Token Plus"] := by
  decide

end Listing

end ArithLex
