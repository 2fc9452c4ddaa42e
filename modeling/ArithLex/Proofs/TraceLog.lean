import ArithLex.Proofs.Delivery
import ArithLex.Proofs.LiveLog
import ArithLex.Proofs.OneScan
import ArithLex.Proofs.SilentRun

/-!
# What the log tells of a text

With all events kept, the log of a run tells how the text was scanned. A token is recorded with the
line that the scan has come to, which is the line behind all bytes that have been read. For a
literal these include the byte that follows it (`Token.lookAhead`), so that a line feed right behind
a literal is counted, and one behind an operator is not.

As long as 32 bits count the line feeds of the input, the lines in the records never go back, and
the fault that ends a listing does not lie before them (`Listing.pairwise_lines_ofInput`). This
holds for every input and every sink.

The main result is `Run.records_of_text`, which gives all events of a run on a text with their
levels, targets, messages and fields.
-/

namespace ArithLex

/-! ## Lines in records -/

/-- The line that a record gives, if it gives one. -/
def Record.line? : Record → Option UInt32
  | opened _ => none
  | scanned line _ => some line
  | endOfInput line => some line
  | finished _ => none
  | aborted _ => none

/-- The number in the field of an event that gives a line. -/
def LogEvent.line? (e : LogEvent) : Option Nat :=
  match e.fields.lookup "line" with
  | some (.number n) => some n
  | _ => none

/-- The text in the field of an event that shows a token. -/
def LogEvent.tokenText? (e : LogEvent) : Option String :=
  match e.fields.lookup "token" with
  | some (.shown s) => some s
  | _ => none

theorem Record.line?_event (r : Record) : r.event.line? = r.line?.map UInt32.toNat := by
  cases r <;> rfl

/-- Where 32 bits count the line feeds that are still to come, a scan does not go back, and they
count those that are to come behind it. -/
theorem Cursor.line_nextToken_le {c : Cursor}
    (h : c.line.toNat + c.rest.signals.count (.byte Byte.newline) < UInt32.size) :
    c.line.toNat ≤ c.nextToken.2.line.toNat ∧
      c.nextToken.2.line.toNat + c.nextToken.2.rest.signals.count (.byte Byte.newline) <
        UInt32.size := by
  obtain ⟨taken, hrest, hline⟩ := c.readsTo_nextToken.rest
  rw [hrest, List.count_append] at h
  have hcount := Signal.count_filterMap_byte? Byte.newline taken
  have hnat : c.nextToken.2.line.toNat =
      (c.line.toNat + taken.count (.byte Byte.newline)) % UInt32.size := by
    rw [hline, toNat_lineBehind, hcount]
  rw [Nat.mod_eq_of_lt (by omega)] at hnat
  omega

namespace Listing

/-- The line of the fault that has ended a listing, if there is one and it has a line. -/
def faultLine? (l : Listing) : Option UInt32 :=
  match l.outcome with
  | .ok _ => none
  | .error f => f.position?.map Position.line

/-- The lines that a listing tells of: first those in its records, then that of its fault. -/
def lines (l : Listing) : List UInt32 :=
  l.records.filterMap Record.line? ++ l.faultLine?.toList

/-- From one scan to the next, a listing tells of lines in their order. -/
theorem exists_lines_continueFrom {c : Cursor}
    (h : c.line.toNat + c.rest.signals.count (.byte Byte.newline) < UInt32.size) (sink : Sink)
    (count : Nat) (log : Array Record) :
    ∃ lines, (continueFrom c sink count log).lines = log.toList.filterMap Record.line? ++ lines ∧
      ((c.line :: lines).map UInt32.toNat).IsChain (· ≤ ·) := by
  -- along the scans of the listing
  induction c using Cursor.token_induction generalizing sink count log with
  | step c ih =>
    obtain ⟨hle, hbound⟩ := Cursor.line_nextToken_le h
    rcases hscan : c.nextToken with ⟨t | _ | f, c'⟩
    · rw [hscan] at hle hbound
      rw [continueFrom_of_item hscan]
      by_cases hroom : sink.hasRoom (utf8 t.line) = true
      · obtain ⟨lines, hlines, hchain⟩ := ih t c' hscan hbound (sink.write (utf8 t.line)).2
          (count + 1) (log.push (.scanned c'.line t))
        rw [if_pos hroom]
        exact ⟨c'.line :: lines, by simpa [Record.line?] using hlines, .cons_cons hle hchain⟩
      · rw [if_neg hroom]
        exact ⟨[c'.line], by simp [lines, faultLine?, Fault.position?, Record.line?],
          .cons_cons hle (.singleton _)⟩
    · rw [hscan] at hle
      rw [continueFrom_eq, hscan]
      refine ⟨[c'.line], ?_, .cons_cons hle (.singleton _)⟩
      rcases sink.flush with ⟨_ | e, sink'⟩
      · simp [lines, faultLine?, Record.line?]
      · simp [lines, faultLine?, Fault.position?, Record.line?]
    · have harises : f.ArisesAt c' := by
        have hplace := Cursor.arisesAt_of_nextToken (congrArg Prod.fst hscan)
        rw [hscan] at hplace
        exact hplace
      rw [hscan] at hle
      rw [continueFrom_eq, hscan]
      rcases harises with ⟨b, rfl⟩ | ⟨e, rfl⟩
      · exact ⟨[c'.line], by simp [lines, faultLine?, Fault.position?, Cursor.position],
          .cons_cons hle (.singleton _)⟩
      · exact ⟨[], by simp [lines, faultLine?, Fault.position?], .singleton _⟩

/-- A listing of an input whose line feeds can be counted tells of lines in their order, whatever
the sink is. -/
theorem pairwise_lines_ofInput (path : String) {script : Script}
    (h : script.signals.count (.byte Byte.newline) < UInt32.size - 1) (sink : Sink) :
    ((ofInput path (.ok script) sink).lines.map UInt32.toNat).Pairwise (· ≤ ·) := by
  have hstart : (Cursor.ofScript path script).line.toNat +
      (Cursor.ofScript path script).rest.signals.count (.byte Byte.newline) < UInt32.size := by
    change 1 + script.signals.count (.byte Byte.newline) < UInt32.size
    omega
  obtain ⟨lines, hlines, hchain⟩ := exists_lines_continueFrom hstart sink 0 #[.opened path]
  have hall : (ofInput path (.ok script) sink).lines = lines := hlines
  rw [hall]
  exact (List.isChain_iff_pairwise.1 hchain).tail

end Listing

/-! ## The lines of tokens -/

/-- What is read of the text behind a token when it is scanned: one byte behind a literal. -/
def Token.lookAhead : Token → List Byte → List Byte
  | .op _, _ => []
  | .lit _, behind => behind.take 1

/-- The line that is reached behind a token which stands between two parts of a text. -/
def Token.lineReached (upTo : List Byte) (t : Token) (behind : List Byte) : UInt32 :=
  Cursor.lineBehind 1 (upTo ++ t.lookAhead behind)

/-- The number of this line: one more than the number of line feeds up to the end of the token, and
one more for a line feed right behind a literal. -/
def Token.lineNumber (upTo : List Byte) (t : Token) (behind : List Byte) : Nat :=
  1 + upTo.count Byte.newline +
    if t.value?.isSome ∧ behind.head? = some Byte.newline then 1 else 0

theorem Token.toNat_lineReached {upTo behind : List Byte} (t : Token)
    (h : (upTo ++ behind).count Byte.newline < UInt32.size - 1) :
    (t.lineReached upTo behind).toNat = t.lineNumber upTo behind := by
  have hahead : (t.lookAhead behind).count Byte.newline =
      if t.value?.isSome ∧ behind.head? = some Byte.newline then 1 else 0 := by
    cases t with
    | op o => simp [lookAhead, value?]
    | lit v => cases behind <;> simp [lookAhead, value?, List.count_singleton]
  have hle : (t.lookAhead behind).count Byte.newline ≤ behind.count Byte.newline := by
    cases t with
    | op o => exact Nat.zero_le _
    | lit v => exact (List.take_sublist 1 behind).count_le _
  rw [List.count_append] at h
  rw [lineReached, lineNumber, ← hahead, Cursor.toNat_lineBehind_one, List.count_append,
    Nat.add_assoc]
  rw [List.count_append]
  omega

/-- What is found in pieces of a text, with `front` before them and `behind` behind them. -/
def Piece.finds (front : List Byte) : List Piece → List Byte → List Find
  | [], _ => []
  | p :: pieces, behind =>
    ⟨p.token.lineReached (front ++ p.bytes) (pieces.flatMap Piece.bytes ++ behind), p.token⟩ ::
      finds (front ++ p.bytes) pieces behind

/-- The events by which the log is told of the tokens in pieces of a text. -/
def Piece.events (front : List Byte) : List Piece → List Byte → List LogEvent
  | [], _ => []
  | p :: pieces, behind =>
    { level := .trace
      target := "arith_scanner::lexer"
      message := "scanned"
      fields := [
        ("line", .number
          (p.token.lineNumber (front ++ p.bytes) (pieces.flatMap Piece.bytes ++ behind))),
        ("token", .shown p.token.text)] } ::
      events (front ++ p.bytes) pieces behind

namespace Piece

theorem map_token_finds (front : List Byte) (pieces : List Piece) (behind : List Byte) :
    (finds front pieces behind).map Find.token = pieces.map Piece.token := by
  induction pieces generalizing front with
  | nil => rfl
  | cons p pieces ih => rw [finds, List.map_cons, List.map_cons, ih]

theorem length_finds (front : List Byte) (pieces : List Piece) (behind : List Byte) :
    (finds front pieces behind).length = pieces.length := by
  have hlength := congrArg List.length (map_token_finds front pieces behind)
  simpa using hlength

theorem length_events (front : List Byte) (pieces : List Piece) (behind : List Byte) :
    (events front pieces behind).length = pieces.length := by
  induction pieces generalizing front with
  | nil => rfl
  | cons p pieces ih => rw [events, List.length_cons, List.length_cons, ih]

/-- What is found is told in these events, if its lines can be counted. -/
theorem map_event_finds (front : List Byte) (pieces : List Piece) (behind : List Byte)
    (h : (front ++ pieces.flatMap Piece.bytes ++ behind).count Byte.newline < UInt32.size - 1) :
    (finds front pieces behind).map (·.record.event) = events front pieces behind := by
  induction pieces generalizing front with
  | nil => rfl
  | cons p pieces ih =>
    have htext : front ++ (p :: pieces).flatMap Piece.bytes ++ behind =
        front ++ p.bytes ++ (pieces.flatMap Piece.bytes ++ behind) := by simp
    rw [htext] at h
    have hline := p.token.toNat_lineReached h
    rw [← List.append_assoc] at h
    rw [finds, events, List.map_cons, ih _ h, ← hline]
    rfl

/-- The texts of the tokens in these events are the lines of the listing. -/
theorem flatMap_tokenText_events (front : List Byte) (pieces : List Piece) (behind : List Byte) :
    ((events front pieces behind).filterMap LogEvent.tokenText?).flatMap
      (fun shown => utf8 (shown ++ "\n")) = Listing.bytesOf (pieces.map Piece.token) := by
  induction pieces generalizing front with
  | nil => rfl
  | cons p pieces ih =>
    exact congrArg (utf8 (p.token.text ++ "\n") ++ ·) (ih (front ++ p.bytes))

end Piece

namespace Cursor

theorem Finds.of_nextToken_eq {c d e : Cursor} {finds : List Find}
    (h : c.nextToken = d.nextToken) (hd : Finds d finds e) : Finds c finds e := by
  cases hd with
  | stop hstop => exact .stop (h.trans hstop)
  | scan hscan hrest => exact .scan (h.trans hscan) hrest

/-- A written token is scanned, and behind a literal one byte more is read. -/
theorem exists_nextToken_of_writtenAs (name : String) (line : UInt32) {t : Token}
    {written behind : List Byte} (ht : t.WrittenAs written)
    (hend : t.value?.isSome → ∀ b, behind.head? = some b → b.isDigit = false) :
    ∃ c, (facing name line ((written ++ behind).map .byte)).nextToken = (.item t, c) ∧
      c.nextToken = (facing name line (behind.map .byte)).nextToken ∧
      c.line = lineBehind line (t.lookAhead behind) := by
  cases t with
  | op o =>
    obtain rfl : written = [o.byte] := ht
    exact ⟨_, nextToken_op name line o _, rfl, (lineBehind_nil line).symm⟩
  | lit v =>
    obtain ⟨hne, hdigits, hv⟩ := Token.writtenAs_lit_iff.1 ht
    subst hv
    rw [List.map_append]
    rcases behind with _ | ⟨b, behind⟩
    · exact ⟨_, nextToken_digits name line hne hdigits (by simp), rfl, (lineBehind_nil line).symm⟩
    · have hb : b.isDigit = false := hend rfl b rfl
      exact ⟨_, nextToken_digits_byte name line hne hdigits hb _, nextToken_unread ..,
        (lineBehind_singleton line b).symm⟩

/-- The tokens of a layout are found one after the other, each with its line. -/
theorem finds_of_layout (name : String) (front : List Byte) {pieces : List Piece}
    {last behind : List Byte} (h : IsLayout pieces last)
    (hbehind : ∀ b, behind.head? = some b → b.isDigit = false) :
    Finds
      (facing name (lineBehind 1 front)
        ((pieces.flatMap Piece.bytes ++ (last ++ behind)).map .byte))
      (Piece.finds front pieces (last ++ behind))
      (facing name (lineBehind 1 (front ++ pieces.flatMap Piece.bytes ++ last))
        (behind.map .byte)) := by
  induction pieces generalizing front with
  | nil =>
    have hgap := nextToken_gap name (lineBehind 1 front) h.isGap_last (behind.map .byte)
    rw [List.flatMap_nil, List.nil_append, List.append_nil, List.map_append, lineBehind_append]
    exact .stop hgap
  | cons p pieces ih =>
    have hgap := h.isGap p (by simp)
    have hwritten := h.writtenAs p (by simp)
    have hend : p.token.value?.isSome →
        ∀ b, (pieces.flatMap Piece.bytes ++ (last ++ behind)).head? = some b →
          b.isDigit = false := by
      intro hlit b hb
      rw [← List.append_assoc, List.head?_append, Option.or_eq_some_iff] at hb
      rcases hb with hb | ⟨-, hb⟩
      · exact h.isDigit_of_head? hlit hb
      · exact hbehind b hb
    obtain ⟨c, hscan, hc, hline⟩ := exists_nextToken_of_writtenAs name
      (lineBehind 1 (front ++ p.bytes)) hwritten hend
    have hfront : lineBehind (lineBehind 1 front) p.gap = lineBehind 1 (front ++ p.bytes) := by
      rw [Piece.bytes, ← List.append_assoc, lineBehind_append _ _ p.written,
        lineBehind_of_count_eq_zero hwritten.count_newline, lineBehind_append]
    have hbytes : (p :: pieces).flatMap Piece.bytes ++ (last ++ behind) =
        p.gap ++ (p.written ++ (pieces.flatMap Piece.bytes ++ (last ++ behind))) := by
      simp [Piece.bytes]
    have hstart := nextToken_gap name (lineBehind 1 front) hgap
      ((p.written ++ (pieces.flatMap Piece.bytes ++ (last ++ behind))).map .byte)
    rw [hfront, hscan, ← List.map_append, ← hbytes] at hstart
    have hrest := (ih (front ++ p.bytes) h.tail).of_nextToken_eq hc
    have hfound := Finds.scan hstart hrest
    rw [hline, ← lineBehind_append] at hfound
    simpa [Piece.finds, Token.lineReached] using hfound

/-- Scanning a text finds the tokens before the first illegal byte, and comes to this byte. -/
theorem finds_ofScript (path : String) {s : List Byte} {script : Script}
    (hs : script.signals = s.map .byte) {pieces : List Piece} {last : List Byte}
    (h : IsLayout pieces last) (hfront : s.takeWhile Byte.isLegal =
      pieces.flatMap Piece.bytes ++ last) :
    Finds (ofScript path script).unchunked
      (Piece.finds [] pieces (last ++ s.dropWhile Byte.isLegal))
      (facing path (lineBehind 1 (s.takeWhile Byte.isLegal))
        ((s.dropWhile Byte.isLegal).map .byte)) := by
  have hbehind : ∀ b, (s.dropWhile Byte.isLegal).head? = some b → b.isDigit = false := by
    intro b hb
    obtain ⟨behind, hdrop⟩ := List.head?_eq_some_iff.1 hb
    have hillegal := Byte.isLegal_eq_false_of_dropWhile hdrop
    simp only [Byte.isLegal_eq, Bool.or_eq_false_iff] at hillegal
    exact hillegal.2
  have htext : s = pieces.flatMap Piece.bytes ++ (last ++ s.dropWhile Byte.isLegal) := by
    rw [← List.append_assoc, ← hfront, List.takeWhile_append_dropWhile]
  have hfinds := finds_of_layout path [] h hbehind
  rw [← htext, List.nil_append, ← hfront, ← hs, lineBehind_nil] at hfinds
  exact hfinds.of_nextToken_eq (nextToken_ofScript path script)

end Cursor

/-! ## Listings of texts -/

namespace Listing

variable {path : String} {s last : List Byte} {script : Script} {pieces : List Piece}

/-- Where the script is used up and the flush does not fail, the listing is complete. -/
theorem continueFrom_nil_of_flushFailure_eq_none (name : String) (line : UInt32) {sink : Sink}
    (h : sink.flushFailure = none) (count : Nat) (log : Array Record) :
    continueFrom (Cursor.facing name line []) sink count log =
      { outcome := .ok count
        sink := sink.flush.2
        records := log.toList ++ [.endOfInput line, .finished count] } := by
  have hflush : sink.flush = (none, sink.flush.2) := by rw [Sink.flush, h]
  rw [continueFrom_eq, Cursor.nextToken_nil, hflush]
  simp

/-- A text of legal bytes, with room for all of it: every token is recorded and listed, and then
the end of the text. -/
theorem ofInput_of_legal (hs : script.signals = s.map .byte) (h : IsLayout pieces last)
    (hfront : s.takeWhile Byte.isLegal = pieces.flatMap Piece.bytes ++ last)
    (hbehind : s.dropWhile Byte.isLegal = []) {sink : Sink} (hflush : sink.flushFailure = none)
    (hroom : sink.hasRoom (bytesOf (pieces.map Piece.token)) = true) :
    ofInput path (.ok script) sink =
      { outcome := .ok pieces.length
        sink := (sink.write (bytesOf (pieces.map Piece.token))).2.flush.2
        records := .opened path :: (Piece.finds [] pieces last).map Find.record ++
          [.endOfInput (Cursor.lineBehind 1 s), .finished pieces.length] } := by
  have hfinds := Cursor.finds_ofScript path hs h hfront
  have hall : s.takeWhile Byte.isLegal = s := by
    have hsplit := List.takeWhile_append_dropWhile (p := Byte.isLegal) (l := s)
    rwa [hbehind, List.append_nil] at hsplit
  have hwritten : (sink.write (bytesOf (pieces.map Piece.token))).2.flushFailure = none := hflush
  obtain ⟨n, hlisted⟩ := exists_continueFrom_of_finds hfinds sink 0 #[.opened path]
  rw [Piece.map_token_finds, Piece.length_finds, if_pos hroom, hall, hbehind, List.append_nil,
    List.map_nil, continueFrom_nil_of_flushFailure_eq_none path _ hwritten] at hlisted
  rw [ofInput_ok, ← continueFrom_unchunked, hlisted]
  simp

/-- A text with an illegal byte, with room for the tokens before it: these are recorded and listed,
and then the byte is the fault. -/
theorem ofInput_of_illegal (hs : script.signals = s.map .byte) (h : IsLayout pieces last)
    (hfront : s.takeWhile Byte.isLegal = pieces.flatMap Piece.bytes ++ last) {b : Byte}
    {behind : List Byte} (hbehind : s.dropWhile Byte.isLegal = b :: behind) {sink : Sink}
    (hroom : sink.hasRoom (bytesOf (pieces.map Piece.token)) = true) :
    ofInput path (.ok script) sink =
      { outcome := .error
          (.illegalByte b ⟨Cursor.lineBehind 1 (s.takeWhile Byte.isLegal), path⟩)
        sink := (sink.write (bytesOf (pieces.map Piece.token))).2
        records := .opened path ::
          (Piece.finds [] pieces (last ++ b :: behind)).map Find.record } := by
  have hfinds := Cursor.finds_ofScript path hs h hfront
  have hb : b.isLegal = false := Byte.isLegal_eq_false_of_dropWhile hbehind
  obtain ⟨n, hlisted⟩ := exists_continueFrom_of_finds hfinds sink 0 #[.opened path]
  rw [Piece.map_token_finds, Piece.length_finds, if_pos hroom, hbehind, List.map_cons,
    continueFrom_illegal path _ hb] at hlisted
  rw [ofInput_ok, ← continueFrom_unchunked, hlisted]
  simp

/-- No token before an illegal byte is found on a line behind that of the byte. -/
theorem line_le_of_illegal (hs : script.signals = s.map .byte)
    (hcount : script.signals.count (.byte Byte.newline) < UInt32.size - 1)
    (h : IsLayout pieces last)
    (hfront : s.takeWhile Byte.isLegal = pieces.flatMap Piece.bytes ++ last) {b : Byte}
    {behind : List Byte} (hbehind : s.dropWhile Byte.isLegal = b :: behind) {f : Find}
    (hf : f ∈ Piece.finds [] pieces (last ++ b :: behind)) :
    f.line.toNat ≤ (Cursor.lineBehind 1 (s.takeWhile Byte.isLegal)).toNat := by
  have hlines := pairwise_lines_ofInput "" hcount {}
  rw [ofInput_of_illegal hs h hfront hbehind rfl, lines, List.map_append] at hlines
  have hmem : f.line ∈ (Record.opened "" ::
      (Piece.finds [] pieces (last ++ b :: behind)).map Find.record).filterMap Record.line? :=
    List.mem_filterMap.2 ⟨f.record, List.mem_cons_of_mem _ (List.mem_map_of_mem hf), rfl⟩
  exact (List.pairwise_append.1 hlines).2.2 _ (List.mem_map_of_mem hmem) _
    (List.mem_singleton.2 rfl)

/-- A full device has no room for a line. -/
theorem hasRoom_line_full (refusal : IoFailure) (t : Token) :
    (Sink.full refusal).hasRoom (utf8 t.line) = false := by
  have hne : utf8 t.line ≠ [] := by
    intro hnil
    have hcount := t.count_newline_line
    rw [hnil] at hcount
    contradiction
  simpa [Sink.hasRoom, Sink.full] using hne

/-- The first token for which there is no room is recorded, and then the listing ends. -/
theorem continueFrom_of_finds_of_not_hasRoom {c d : Cursor} {f : Find} {finds : List Find}
    (h : Cursor.Finds c (f :: finds) d) {sink : Sink}
    (hroom : sink.hasRoom (utf8 f.token.line) = false) (count : Nat) (log : Array Record) :
    continueFrom c sink count log =
      { outcome := .error (.cannotWrite sink.writeFailure)
        sink := (sink.write (utf8 f.token.line)).2
        records := log.toList ++ [f.record] } := by
  cases h with
  | scan hscan hrest =>
    rw [continueFrom_of_item hscan, if_neg (by simp [hroom])]
    simp [Find.record]

end Listing

/-! ## Runs on texts -/

namespace Run

/-- A log that keeps every event writes a text for every event of a run. -/
theorem runProgram_of_keeps_all {host : Host} {setting : String}
    (h : ∀ e, host.keeps setting e = true) (argv : List ByteArray) (sink : Sink) :
    let run := ofArgv host argv sink
    runProgram host (some setting) argv sink =
      ⟨run.stdout, host.transcript run.events ++ run.report, run.exitCode⟩ := by
  intro run
  have hall : run.events.filter (fun _ => true) = run.events :=
    List.filter_eq_self.2 fun _ _ => rfl
  rw [runProgram_of_keeps h, hall, runProgram_none]
  rfl

/-- A run that finds something between its first record and some others. -/
theorem events_of_records {r : Run} {path : String} {finds : List Find} {rest : List Record}
    (h : r.records = .opened path :: finds.map Find.record ++ rest) :
    r.events = (Record.opened path).event :: finds.map (·.record.event) ++
      rest.map Record.event := by
  rw [events, h, List.map_append, List.map_cons, List.map_map]
  rfl

theorem filterMap_line?_events (r : Run) :
    r.events.filterMap LogEvent.line? = (r.records.filterMap Record.line?).map UInt32.toNat := by
  rw [events, List.filterMap_map, List.map_filterMap]
  exact congrArg (List.filterMap · r.records) (funext Record.line?_event)

section

variable {host : Host} {argv : List ByteArray} {program path : String} {script : Script}
  {s last : List Byte} {pieces : List Piece}

theorem ofArgv_of_openPath (hargs : decodeArgs argv = some [program, path])
    (hopen : host.openPath path = .ok script) (sink : Sink) :
    ofArgv host argv sink = ofListing (Listing.ofInput path (.ok script) sink) := by
  rw [ofArgv, hargs, ← hopen]
  rfl

/-- The lines in the records of a run never go back, if the line feeds of its input can be counted.
-/
theorem pairwise_lines (hargs : decodeArgs argv = some [program, path])
    (hopen : host.openPath path = .ok script)
    (hcount : script.signals.count (.byte Byte.newline) < UInt32.size - 1) (sink : Sink) :
    ((ofArgv host argv sink).events.filterMap LogEvent.line?).Pairwise (· ≤ ·) := by
  have hlines := Listing.pairwise_lines_ofInput path hcount sink
  rw [Listing.lines, List.map_append] at hlines
  have hrecords := (List.pairwise_append.1 hlines).1
  rw [filterMap_line?_events, ofArgv_of_openPath hargs hopen, ofListing]
  rcases (Listing.ofInput path (.ok script) sink).outcome with f | n
  · have haborted : [Record.aborted f.category].filterMap Record.line? = [] := rfl
    simpa only [List.filterMap_append, haborted, List.append_nil] using hrecords
  · exact hrecords

/-- With room for everything, the tokens before the first illegal byte of a text are listed and
recorded, and then what is met behind them. -/
theorem records_of_room (hargs : decodeArgs argv = some [program, path])
    (hopen : host.openPath path = .ok script) (hs : script.signals = s.map .byte)
    (h : IsLayout pieces last)
    (hfront : s.takeWhile Byte.isLegal = pieces.flatMap Piece.bytes ++ last) {sink : Sink}
    (hflush : sink.flushFailure = none)
    (hroom : sink.hasRoom (Listing.bytesOf (pieces.map Piece.token)) = true) :
    let scanned := (Piece.finds [] pieces (last ++ s.dropWhile Byte.isLegal)).map Find.record
    let stdout := (sink.write (Listing.bytesOf (pieces.map Piece.token))).2.held
    (s.dropWhile Byte.isLegal = [] →
      ofArgv host argv sink =
        { stdout
          records := .opened path :: scanned ++
            [.endOfInput (Cursor.lineBehind 1 s), .finished pieces.length]
          report := ""
          exitCode := 0 }) ∧
    ∀ b after, s.dropWhile Byte.isLegal = b :: after →
      ofArgv host argv sink =
        { stdout
          records := .opened path :: scanned ++ [.aborted .lexical]
          report := "Error: " ++ Fault.message
            (.illegalByte b ⟨Cursor.lineBehind 1 (s.takeWhile Byte.isLegal), path⟩) ++ "\n"
          exitCode := 1 } := by
  intro scanned stdout
  rw [ofArgv_of_openPath hargs hopen]
  constructor
  · intro hbehind
    rw [Listing.ofInput_of_legal hs h hfront hbehind hflush hroom]
    simp only [scanned, hbehind, List.append_nil]
    rfl
  · intro b after hbehind
    rw [Listing.ofInput_of_illegal hs h hfront hbehind hroom]
    simp only [scanned, hbehind]
    rfl

/-- A text has tokens before its first illegal byte exactly if it begins with one, behind the blanks
in front. -/
theorem pieces_ne_nil_iff (h : IsLayout pieces last)
    (hfront : s.takeWhile Byte.isLegal = pieces.flatMap Piece.bytes ++ last) :
    pieces ≠ [] ↔ ∃ b, (s.dropWhile Byte.isBlank).head? = some b ∧
      (b.isDigit = true ∨ (Operator.ofByte? b).isSome = true) := by
  have hrenders : Renders (pieces.map Piece.token) (s.takeWhile Byte.isLegal) := by
    rw [hfront]
    exact h.renders
  have htokens : pieces ≠ [] ↔ pieces.map Piece.token ≠ [] := List.map_eq_nil_iff.not.symm
  rw [htokens, hrenders.ne_nil_iff_exists_head?]
  exact exists_congr fun b => and_congr_right fun hb =>
    Byte.isLegal_iff_of_not_isBlank (Byte.isBlank_eq_false_of_head?_dropWhile hb)

/-- With room for everything, the output holds the lines of the tokens. -/
theorem stdout_of_room (hargs : decodeArgs argv = some [program, path])
    (hopen : host.openPath path = .ok script) (hs : script.signals = s.map .byte)
    (h : IsLayout pieces last)
    (hfront : s.takeWhile Byte.isLegal = pieces.flatMap Piece.bytes ++ last) :
    (ofArgv host argv {}).stdout.toList = Listing.bytesOf (pieces.map Piece.token) := by
  have hroom : Sink.hasRoom {} (Listing.bytesOf (pieces.map Piece.token)) = true := rfl
  have hheld := Sink.toList_held_write_empty (Listing.bytesOf (pieces.map Piece.token))
  obtain ⟨hlegal, hillegal⟩ := records_of_room hargs hopen hs h hfront rfl hroom
  cases hbehind : s.dropWhile Byte.isLegal with
  | nil => rwa [hlegal hbehind]
  | cons b after => rwa [hillegal b after hbehind]

/-- On a full device, a text without tokens is told and reported as with room. -/
theorem ofArgv_full_of_layout_nil (hargs : decodeArgs argv = some [program, path])
    (hopen : host.openPath path = .ok script) (hs : script.signals = s.map .byte)
    (h : IsLayout [] last) (hfront : s.takeWhile Byte.isLegal = last) (refusal : IoFailure) :
    let written := ofArgv host argv {}
    let refused := ofArgv host argv (.full refusal)
    refused.records = written.records ∧ refused.report = written.report := by
  intro written refused
  -- nothing is to be listed, so that there is room for it
  have hroom : (Sink.full refusal).hasRoom (Listing.bytesOf ([].map Piece.token)) = true :=
    (Sink.full refusal).hasRoom_nil
  obtain ⟨hlegal, hillegal⟩ := records_of_room hargs hopen hs h hfront rfl hroom
  have hroom' : Sink.hasRoom {} (Listing.bytesOf ([].map Piece.token)) = true := rfl
  obtain ⟨hlegal', hillegal'⟩ := records_of_room hargs hopen hs h hfront rfl hroom'
  cases hbehind : s.dropWhile Byte.isLegal with
  | nil =>
    rw [show refused = _ from hlegal hbehind, show written = _ from hlegal' hbehind]
    exact ⟨rfl, rfl⟩
  | cons b after =>
    rw [show refused = _ from hillegal b after hbehind,
      show written = _ from hillegal' b after hbehind]
    exact ⟨rfl, rfl⟩

/-- On a full device, the first token of a text ends the run. -/
theorem records_of_full (hargs : decodeArgs argv = some [program, path])
    (hopen : host.openPath path = .ok script) (hs : script.signals = s.map .byte)
    (h : IsLayout pieces last)
    (hfront : s.takeWhile Byte.isLegal = pieces.flatMap Piece.bytes ++ last)
    {refusal : IoFailure} (hrefusal : refusal.isRetried = false) (hne : pieces ≠ []) :
    ∃ f, (Piece.finds [] pieces (last ++ s.dropWhile Byte.isLegal)).head? = some f ∧
      (ofArgv host argv (.full refusal)).records = [.opened path, f.record, .aborted .external] ∧
      (ofArgv host argv (.full refusal)).report =
        "Error: " ++ (Fault.cannotWrite refusal).message ++ "\n" := by
  obtain ⟨p, ps, rfl⟩ := List.exists_cons_of_ne_nil hne
  have hfinds := Cursor.finds_ofScript path hs h hfront
  rw [Piece.finds] at hfinds
  have hlisted := Listing.continueFrom_of_finds_of_not_hasRoom hfinds
    (Listing.hasRoom_line_full refusal _) 0 #[.opened path]
  have hfailure : (Sink.full refusal).writeFailure = refusal :=
    if_neg (by simp [Sink.full, hrefusal])
  rw [Listing.continueFrom_unchunked, hfailure] at hlisted
  rw [ofArgv_of_openPath hargs hopen, Listing.ofInput_ok, hlisted]
  exact ⟨_, rfl, rfl, rfl⟩

end

/-- The log of a run on a text of fewer than 2^32 - 1 line feeds, if all events are kept. The
standard error holds a text for each event, in order, and the report behind them. The lines that the
events give never go back. First the input is told to be opened. The tokens before the first illegal
byte are told in order, each with the text that is listed for it and with the line that is reached
behind it; there are as many of these events as lines on the standard output. A text of legal bytes
then comes to its end, behind all its line feeds, and the listing is complete with this number of
tokens. In any other text the first illegal byte is reported, on a line that none of the events
exceeds. On a full device, the first token is the only one that is told of a text that begins with
one, and the refused write is reported; any other text is told as with room. -/
theorem records_of_text (host : Host) (program path : String) {script : Script}
    {s : List Byte} (hopen : host.openPath path = .ok script) (hs : script.signals = s.map .byte)
    (hcount : s.count Byte.newline < UInt32.size - 1)
    (htrace : ∀ e, host.keeps "trace" e = true) {refusal : IoFailure}
    (hrefusal : refusal.isRetried = false) :
    let argv := [program, path].map String.toUTF8
    let front := s.takeWhile Byte.isLegal
    let behind := s.dropWhile Byte.isLegal
    let written := ofArgv host argv {}
    let refused := ofArgv host argv (.full refusal)
    let begins := ∃ b, (s.dropWhile Byte.isBlank).head? = some b ∧
      (b.isDigit = true ∨ (Operator.ofByte? b).isSome = true)
    let opened : LogEvent :=
      ⟨.debug, "arith_scanner::lexer", "opened input", [("file", .shown path)]⟩
    let endOfInput (line : Nat) : LogEvent :=
      ⟨.debug, "arith_scanner::lexer", "end of input", [("line", .number line)]⟩
    let finished (count : Nat) : LogEvent :=
      ⟨.debug, "arith_scanner", "scan finished", [("count", .number count)]⟩
    let aborted (kind : String) : LogEvent :=
      ⟨.debug, "arith_scanner", "scan aborted", [("kind", .text kind)]⟩
    (∀ sink, runProgram host (some "trace") argv sink =
      let run := ofArgv host argv sink
      ⟨run.stdout, String.join (run.events.mapIdx host.logText) ++ run.report, run.exitCode⟩) ∧
    (∀ sink, ((ofArgv host argv sink).events.filterMap LogEvent.line?).Pairwise (· ≤ ·)) ∧
    (∃ pieces last, IsLayout pieces last ∧ front = pieces.flatMap Piece.bytes ++ last) ∧
    ∀ pieces last, IsLayout pieces last → front = pieces.flatMap Piece.bytes ++ last →
      let scanned := Piece.events [] pieces (last ++ behind)
      written.stdout.toList = (scanned.filterMap LogEvent.tokenText?).flatMap
        (fun shown => utf8 (shown ++ "\n")) ∧
      written.stdout.toList.count Byte.newline = scanned.length ∧
      (behind = [] →
        written.events = opened :: scanned ++
          [endOfInput (1 + s.count Byte.newline), finished scanned.length] ∧
        written.report = "" ∧ written.exitCode = 0) ∧
      (∀ b after, behind = b :: after →
        written.events = opened :: scanned ++ [aborted "LexError"] ∧ written.exitCode = 1 ∧
        ∃ place : Position, place.line.toNat = 1 + front.count Byte.newline ∧
          written.report = "Error: " ++ (Fault.illegalByte b place).message ++ "\n" ∧
          ∀ line ∈ scanned.filterMap LogEvent.line?, line ≤ place.line.toNat) ∧
      (begins → ∃ e, scanned.head? = some e ∧
        refused.events = [opened, e, aborted "IOError"] ∧
        refused.report = "Error: " ++ (Fault.cannotWrite refusal).message ++ "\n") ∧
      (¬begins → refused.events = written.events ∧ refused.report = written.report) := by
  intro argv front behind written refused begins opened endOfInput finished aborted
  have hargs : decodeArgs argv = some [program, path] := decodeArgs_eq_some_iff.2 rfl
  have hsignals : script.signals.count (.byte Byte.newline) < UInt32.size - 1 := by
    have hbytes : (s.map Signal.byte).filterMap Signal.byte? = s := by
      rw [List.filterMap_map]
      exact List.filterMap_some
    rwa [hs, ← Signal.count_filterMap_byte?, hbytes]
  obtain ⟨ts, hts⟩ := exists_renders (s := front) fun b hb => List.mem_takeWhile_imp hb
  obtain ⟨pieces, last, hlayout, -, hfront⟩ := hts.exists_layout
  refine ⟨runProgram_of_keeps_all htrace argv, pairwise_lines hargs hopen hsignals,
    ⟨pieces, last, hlayout, hfront⟩, ?_⟩
  clear hts hlayout hfront pieces last
  intro pieces last hlayout hfront scanned
  have hscanned : (Piece.finds [] pieces (last ++ behind)).map (·.record.event) = scanned := by
    refine Piece.map_event_finds [] pieces (last ++ behind) ?_
    rwa [List.nil_append, ← List.append_assoc, ← hfront, List.takeWhile_append_dropWhile]
  have hlength : scanned.length = pieces.length := Piece.length_events [] pieces (last ++ behind)
  have hline : (Cursor.lineBehind 1 front).toNat = 1 + front.count Byte.newline :=
    Cursor.toNat_lineBehind_one
      (Nat.lt_of_le_of_lt ((List.takeWhile_sublist Byte.isLegal).count_le _) hcount)
  have hbegins : pieces ≠ [] ↔ begins := pieces_ne_nil_iff hlayout hfront
  have hroom : Sink.hasRoom {} (Listing.bytesOf (pieces.map Piece.token)) = true := rfl
  obtain ⟨hlegal, hillegal⟩ := records_of_room hargs hopen hs hlayout hfront rfl hroom
  have hstdout : written.stdout.toList = Listing.bytesOf (pieces.map Piece.token) :=
    stdout_of_room hargs hopen hs hlayout hfront
  refine ⟨?_, ?_, ?_, ?_, ?_, ?_⟩
  · rw [hstdout, Piece.flatMap_tokenText_events]
  · rw [hstdout, Listing.count_newline_bytesOf, hlength, List.length_map]
  · intro hbehind
    have hrecords := congrArg records (hlegal hbehind)
    rw [events_of_records hrecords, show written = _ from hlegal hbehind, hlength, ← hscanned,
      ← Cursor.toNat_lineBehind_one hcount]
    exact ⟨rfl, rfl, rfl⟩
  · intro b after hbehind
    have hrecords := congrArg records (hillegal b after hbehind)
    rw [events_of_records hrecords, show written = _ from hillegal b after hbehind]
    refine ⟨?_, rfl, ⟨Cursor.lineBehind 1 front, path⟩, hline, rfl, ?_⟩
    · rw [← hscanned]
      rfl
    · intro line hmem
      rw [← hscanned, List.filterMap_map] at hmem
      obtain ⟨f, hf, hfound⟩ := List.mem_filterMap.1 hmem
      obtain rfl : f.line.toNat = line := Option.some.inj hfound
      rw [show behind = b :: after from hbehind] at hf
      exact Listing.line_le_of_illegal hs hsignals hlayout hfront hbehind hf
  · intro hfirst
    obtain ⟨f, hf, hrecords, hreport⟩ :=
      records_of_full hargs hopen hs hlayout hfront hrefusal (hbegins.2 hfirst)
    refine ⟨f.record.event, ?_, ?_, hreport⟩
    · rw [← hscanned, List.head?_map, hf]
      rfl
    · rw [events, show refused.records = _ from hrecords]
      rfl
  · intro hfirst
    obtain rfl : pieces = [] := not_ne_iff.1 (mt hbegins.1 hfirst)
    obtain ⟨hrecords, hreport⟩ := ofArgv_full_of_layout_nil hargs hopen hs hlayout hfront refusal
    exact ⟨congrArg (List.map Record.event) hrecords, hreport⟩

/-- The line feed behind a literal is read with it, and the one behind an operator is not. -/
theorem records_of_text_two_lines :
    let host : Host := {
      openPath := fun _ => .ok (.ofBytes (utf8 "12\n+\n"))
      keeps := fun setting _ => setting == "trace"
      logText := fun _ e => e.message ++ "\n"
      panicText := fun _ => "" }
    (ofArgv host (["arith_scanner", "in"].map String.toUTF8) {}).events.filterMap LogEvent.line? =
      [2, 2, 3] := by
  intro host
  have hdigits : ∀ d ∈ utf8 "12", d.isDigit = true := List.all_eq_true.1 (by decide)
  have hliteral : (Token.lit 12).WrittenAs (utf8 "12") :=
    Token.writtenAs_lit_iff.2 ⟨by decide, hdigits, by decide⟩
  have hplus : (Token.op .plus).WrittenAs (utf8 "+") := rfl
  have hgap : IsGap (utf8 "\n") := .cons (by decide) .nil
  have hlayout : IsLayout [⟨[], utf8 "12", .lit 12⟩, ⟨utf8 "\n", utf8 "+", .op .plus⟩]
      (utf8 "\n") := by
    refine ⟨?_, ?_, by decide, hgap⟩
    · exact List.forall_mem_cons.2 ⟨.nil, List.forall_mem_singleton.2 hgap⟩
    · exact List.forall_mem_cons.2 ⟨hliteral, List.forall_mem_singleton.2 hplus⟩
  have hrefusal : IoFailure.shortWrite.isRetried = false := rfl
  obtain ⟨-, -, -, htext⟩ := records_of_text host "arith_scanner" "in" (s := utf8 "12\n+\n")
    rfl (Script.signals_ofBytes _) (by decide) (fun _ => rfl) hrefusal
  obtain ⟨-, -, hlegal, -⟩ := htext _ _ hlayout (by decide)
  obtain ⟨hevents, -⟩ := hlegal (by decide)
  rw [hevents]
  decide

end Run

end ArithLex
