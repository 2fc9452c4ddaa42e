import ArithLex.Proofs.Lines
import ArithLex.Proofs.Run
import ArithLex.Proofs.View

/-!
# How a listing ends

A listing meets four kinds of trouble: the input cannot be opened or read, it holds an illegal byte,
the sink fills up, and the flush fails. Which of them ends it depends on where in the listing the
sink fills up. A run of tokens that are listed is one write of all their lines
(`Listing.exists_continueFrom_of_finds`), so that only the whole matters.

The main result is `Listing.ofInput_outcome`: what the sink holds and how the listing ends, for
every text and every sink.
-/

namespace ArithLex

/-! ## Finds -/

/-- A token that a scan has found, and the line that the scan has come to. -/
structure Find where
  line : UInt32
  token : Token
deriving DecidableEq, Repr

/-- How a listing records a find. -/
def Find.record (f : Find) : Record :=
  .scanned f.line f.token

namespace Cursor

/-- Scanning on from the first cursor finds tokens one after the other, and then goes on as it does
from the second. -/
inductive Finds : Cursor → List Find → Cursor → Prop where
  | stop {c d : Cursor} (h : c.nextToken = d.nextToken) : Finds c [] d
  | scan {c c' d : Cursor} {t : Token} {finds : List Find} (h : c.nextToken = (.item t, c'))
      (hrest : Finds c' finds d) : Finds c (⟨c'.line, t⟩ :: finds) d

/-- A run that gives nothing but tokens finds them. -/
theorem ScansTo.exists_finds {c d : Cursor} {ts : List Token} (h : ScansTo c (ts.map .item) d) :
    ∃ finds, finds.map Find.token = ts ∧ Finds c finds d := by
  induction ts generalizing c with
  | nil =>
    cases h with
    | stop hstop => exact ⟨[], rfl, .stop hstop⟩
  | cons t ts ih =>
    cases h with
    | scan hscan hrest =>
      obtain ⟨finds, rfl, hfinds⟩ := ih hrest
      exact ⟨_ :: finds, rfl, .scan hscan hfinds⟩

end Cursor

namespace Listing

open Cursor

/-! ## Listing what is found -/

/-- A listing depends on the cursor only through the first scan. -/
theorem continueFrom_congr {c d : Cursor} (h : c.nextToken = d.nextToken) (sink : Sink)
    (count : Nat) (log : Array Record) :
    continueFrom c sink count log = continueFrom d sink count log := by
  rw [continueFrom_eq, continueFrom_eq d, h]

/-- A listing does not tell an input from one whose events have been taken apart. -/
theorem continueFrom_unchunked (c : Cursor) (sink : Sink) (count : Nat) (log : Array Record) :
    continueFrom c.unchunked sink count log = continueFrom c sink count log := by
  -- along the scans of the listing
  induction c using token_induction generalizing sink count log with
  | step c ih =>
    rw [continueFrom_eq, continueFrom_eq c, nextToken_unchunked]
    rcases hscan : c.nextToken with ⟨t | _ | f, c'⟩
    · simp only
      rcases sink.write (utf8 t.line) with ⟨_ | e, s⟩
      · exact ih t c' hscan s (count + 1) _
      · rfl
    · rfl
    · rfl

/-- A token is listed where its line fits, and ends the listing where it does not. -/
theorem continueFrom_of_item {c c' : Cursor} {t : Token} (h : c.nextToken = (.item t, c'))
    (sink : Sink) (count : Nat) (log : Array Record) :
    continueFrom c sink count log =
      if sink.hasRoom (utf8 t.line) then
        continueFrom c' (sink.write (utf8 t.line)).2 (count + 1) (log.push (.scanned c'.line t))
      else
        { outcome := .error (.cannotWrite sink.writeFailure)
          sink := (sink.write (utf8 t.line)).2
          records := (log.push (.scanned c'.line t)).toList } := by
  rw [continueFrom_eq, h]
  by_cases hroom : sink.hasRoom (utf8 t.line) = true
  · simp [Sink.write, hroom]
  · simp [Sink.write, hroom]

/-- Listing what is found on a way is one write of all lines, and one record a find. If the lines
fit, the listing goes on behind the way, and if not, it ends on it. -/
theorem exists_continueFrom_of_finds {c d : Cursor} {finds : List Find} (h : Finds c finds d)
    (sink : Sink) (count : Nat) (log : Array Record) :
    ∃ n, continueFrom c sink count log =
      let all := bytesOf (finds.map Find.token)
      if sink.hasRoom all then
        continueFrom d (sink.write all).2 (count + finds.length) (log ++ finds.map Find.record)
      else
        { outcome := .error (.cannotWrite sink.writeFailure)
          sink := (sink.write all).2
          records := log.toList ++ (finds.take n).map Find.record } := by
  induction h generalizing sink count log with
  | stop hstop =>
    refine ⟨0, ?_⟩
    rw [continueFrom_congr hstop]
    simp
  | @scan c c' d t finds hscan _ ih =>
    simp only [List.map_cons, bytesOf_cons]
    rw [continueFrom_of_item hscan, Sink.hasRoom_append]
    cases hroom : sink.hasRoom (utf8 t.line) with
    | true =>
      -- the rest of the way is listed into the sink behind this line
      obtain ⟨n, hn⟩ := ih (sink.write (utf8 t.line)).2 (count + 1)
        (log.push (.scanned c'.line t))
      have hfailure : (sink.write (utf8 t.line)).2.writeFailure = sink.writeFailure := rfl
      have hcount : count + 1 + finds.length = count + (finds.length + 1) := by omega
      have hlog : log.push (.scanned c'.line t) ++ finds.map Find.record =
          log ++ Find.record ⟨c'.line, t⟩ :: finds.map Find.record := by
        rw [← Array.toList_inj]
        simp [Find.record]
      refine ⟨n + 1, ?_⟩
      rw [if_pos rfl, hn, Sink.snd_write_append_of_hasRoom hroom, Bool.true_and, hfailure, hcount,
        hlog]
      simp [Find.record]
    | false =>
      -- what the sink takes of this line is all that it takes
      refine ⟨1, ?_⟩
      rw [Sink.snd_write_append_of_not_hasRoom hroom]
      simp [Find.record]

/-- Listing the tokens of a run is one write of all their lines. If they fit, the listing goes on
behind the run, and if not, it ends there. -/
theorem exists_continueFrom_of_scansTo {c d : Cursor} {ts : List Token}
    (h : ScansTo c (ts.map .item) d) (sink : Sink) (count : Nat) (log : Array Record) :
    ∃ log', continueFrom c sink count log =
      if sink.hasRoom (bytesOf ts) then
        continueFrom d (sink.write (bytesOf ts)).2 (count + ts.length) log'
      else
        { outcome := .error (.cannotWrite sink.writeFailure)
          sink := (sink.write (bytesOf ts)).2
          records := log'.toList } := by
  obtain ⟨finds, rfl, hfinds⟩ := h.exists_finds
  obtain ⟨n, hn⟩ := exists_continueFrom_of_finds hfinds sink count log
  rw [List.length_map]
  by_cases hroom : sink.hasRoom (bytesOf (finds.map Find.token)) = true
  · exact ⟨log ++ finds.map Find.record, by simpa only [if_pos hroom] using hn⟩
  · exact ⟨log ++ (finds.take n).map Find.record, by simpa [hroom] using hn⟩

/-! ## The end of a listing -/

/-- An illegal byte ends a listing, and nothing is flushed. -/
theorem continueFrom_illegal (name : String) (line : UInt32) {b : Byte} (hb : b.isLegal = false)
    (rest : List Signal) (sink : Sink) (count : Nat) (log : Array Record) :
    continueFrom (facing name line (.byte b :: rest)) sink count log =
      { outcome := .error (.illegalByte b ⟨line, name⟩), sink, records := log.toList } := by
  rw [continueFrom_eq, nextToken_illegal name line hb]

/-- Where the script is used up the sink is flushed, and how that goes is how the listing goes. -/
theorem continueFrom_nil (name : String) (line : UInt32) (sink : Sink) (count : Nat)
    (log : Array Record) :
    (continueFrom (facing name line []) sink count log).outcome =
        (match sink.flushFailure with
        | none => .ok count
        | some e => .error (.cannotWrite e)) ∧
      (continueFrom (facing name line []) sink count log).sink = sink.flush.2 := by
  rw [continueFrom_eq, nextToken_nil]
  rcases hflush : sink.flushFailure with _ | e
  · simp [Sink.flush, hflush]
  · simp [Sink.flush, hflush]

/-- Where scanning an input gives tokens and comes to a cursor, these are listed as far as there is
room for them, and the listing goes on from that cursor if there was. -/
theorem exists_ofInput_of_scansTo {path : String} {script : Script} {ts : List Token} {d : Cursor}
    (h : ScansTo (facing path 1 script.signals) (ts.map .item) d) (sink : Sink) :
    ∃ log, ofInput path (.ok script) sink =
      if sink.hasRoom (bytesOf ts) then
        continueFrom d (sink.write (bytesOf ts)).2 ts.length log
      else
        { outcome := .error (.cannotWrite sink.writeFailure)
          sink := (sink.write (bytesOf ts)).2
          records := log.toList } := by
  obtain ⟨log, hlog⟩ := exists_continueFrom_of_scansTo h sink 0 #[.opened path]
  rw [Nat.zero_add] at hlog
  exact ⟨log, by
    rw [ofInput_ok, ← continueFrom_unchunked, continueFrom_congr (nextToken_ofScript path script),
      hlog]⟩

/-- A listing of a text lists the tokens before the first illegal byte, as far as there is room for
them, and goes on from there if there was. -/
theorem exists_ofInput_of_signals (path : String) {s : List Byte} {script : Script}
    (hs : script.signals = s.map .byte) (sink : Sink) :
    ∃ ts log, Renders ts (s.takeWhile Byte.isLegal) ∧
      ofInput path (.ok script) sink =
        if sink.hasRoom (bytesOf ts) then
          continueFrom
            (facing path (lineBehind 1 (s.takeWhile Byte.isLegal))
              ((s.dropWhile Byte.isLegal).map .byte))
            (sink.write (bytesOf ts)).2 ts.length log
        else
          { outcome := .error (.cannotWrite sink.writeFailure)
            sink := (sink.write (bytesOf ts)).2
            records := log.toList } := by
  obtain ⟨ts, hts, hrun⟩ := exists_scansTo_dropWhile path 1 s
  rw [← hs] at hrun
  obtain ⟨log, hlog⟩ := exists_ofInput_of_scansTo hrun sink
  exact ⟨ts, log, hts, hlog⟩

/-- A listing of a text takes the lines of the tokens before the first illegal byte, as far as there
is room. If the room runs out, that is the fault; if not, an illegal byte is. Only where there is
neither the sink is flushed, which may fail. -/
theorem exists_ofInput_text (path : String) {s : List Byte} {script : Script}
    (hs : script.signals = s.map .byte) (sink : Sink) :
    ∃ ts, Renders ts (s.takeWhile Byte.isLegal) ∧
      let l := ofInput path (.ok script) sink
      l.sink.held = (sink.write (bytesOf ts)).2.held ∧
      l.sink.flushes = sink.flushes +
        (if sink.hasRoom (bytesOf ts) ∧ s.dropWhile Byte.isLegal = [] then 1 else 0) ∧
      l.outcome =
        if sink.hasRoom (bytesOf ts) then
          match s.dropWhile Byte.isLegal, sink.flushFailure with
          | b :: _, _ => .error (.illegalByte b ⟨lineBehind 1 (s.takeWhile Byte.isLegal), path⟩)
          | [], none => .ok ts.length
          | [], some e => .error (.cannotWrite e)
        else .error (.cannotWrite sink.writeFailure) := by
  obtain ⟨ts, log, hts, hl⟩ := exists_ofInput_of_signals path hs sink
  refine ⟨ts, hts, ?_⟩
  cases hroom : sink.hasRoom (bytesOf ts) with
  | false =>
    rw [hroom, if_neg Bool.false_ne_true] at hl
    rw [hl, if_neg Bool.false_ne_true]
    exact ⟨rfl, by simp [Sink.write], rfl⟩
  | true =>
    rw [hroom, if_pos rfl] at hl
    rw [hl, if_pos rfl]
    cases hdrop : s.dropWhile Byte.isLegal with
    | nil =>
      obtain ⟨houtcome, hsink⟩ := continueFrom_nil path
        (lineBehind 1 (s.takeWhile Byte.isLegal)) (sink.write (bytesOf ts)).2 ts.length log
      rw [List.map_nil]
      refine ⟨by rw [hsink]; rfl, by rw [hsink]; simp [Sink.flush, Sink.write], ?_⟩
      rw [houtcome, Sink.flushFailure_write]
      cases sink.flushFailure <;> rfl
    | cons b behind =>
      have hb : b.isLegal = false := Byte.isLegal_eq_false_of_dropWhile hdrop
      rw [List.map_cons, continueFrom_illegal path _ hb]
      exact ⟨rfl, by simp [Sink.write], rfl⟩

/-- An input whose first read fails is not listed. -/
theorem ofInput_of_failure (path : String) {e : IoFailure} {h : e.isRetried = false}
    {script : Script} {rest : List Signal} (hs : script.signals = .failure e h :: rest)
    (sink : Sink) :
    (ofInput path (.ok script) sink).outcome = .error (.cannotRead path e) ∧
      (ofInput path (.ok script) sink).sink = sink := by
  rw [ofInput_ok, ← continueFrom_unchunked, continueFrom_congr (nextToken_ofScript path script), hs,
    continueFrom_eq, nextToken_failure]
  exact ⟨rfl, rfl⟩

/-- How a listing into an empty sink ends. Of a text the sink takes the lines of the tokens before
the first illegal byte, as far as there is room. If the room runs out, that is the fault; if not, an
illegal byte is, on its line, and the sink is flushed only where there is none. An input that cannot
be opened, or not be read from the start, leaves the sink as it was. -/
theorem ofInput_outcome (path : String) (capacity : Option Nat) (refusal : IoFailure)
    (flushFailure : Option IoFailure) :
    let sink : Sink := { capacity, refusal, flushFailure }
    (∀ (s : List Byte) script, script.signals = s.map .byte →
      ∃ ts, Renders ts (s.takeWhile Byte.isLegal) ∧
        let all := bytesOf ts
        let fits := ∀ n, capacity = some n → all.length ≤ n
        let line := lineBehind 1 (s.takeWhile Byte.isLegal)
        let l := ofInput path (.ok script) sink
        l.sink.held.toList = all.take (capacity.getD all.length) ∧
        (¬fits → l.outcome = .error (.cannotWrite sink.writeFailure) ∧ l.sink.flushes = 0) ∧
        (fits → ∀ b behind, s.dropWhile Byte.isLegal = b :: behind →
          l.outcome = .error (.illegalByte b ⟨line, path⟩) ∧ l.sink.flushes = 0 ∧
          ((s.takeWhile Byte.isLegal).count Byte.newline < UInt32.size - 1 →
            line.toNat = 1 + (s.takeWhile Byte.isLegal).count Byte.newline)) ∧
        (fits → s.dropWhile Byte.isLegal = [] →
          l.sink.flushes = 1 ∧
          (∀ e, flushFailure = some e → l.outcome = .error (.cannotWrite e)) ∧
          (flushFailure = none → l.outcome = .ok ts.length)) ∧
        (∀ n, l.outcome = .ok n → l.sink.held.toList.count Byte.newline = n)) ∧
    (∀ t : Token, t.line = (match t with
      | .op .plus => "Token Plus"
      | .op .minus => "Token Minus"
      | .op .star => "Token Star"
      | .op .slash => "Token Slash"
      | .lit v => "Token IntLit, value " ++ toString v.toInt) ++ "\n") ∧
    (refusal.isRetried = false → sink.writeFailure = refusal) ∧
    (∀ e, ofInput path (.error e) sink = ⟨.error (.cannotOpen path e), sink, []⟩) ∧
    (∀ e h script rest, script.signals = .failure e h :: rest →
      (ofInput path (.ok script) sink).outcome = .error (.cannotRead path e) ∧
        (ofInput path (.ok script) sink).sink = sink) := by
  intro sink
  refine ⟨?_, fun t => ?_, ?_, fun e => rfl,
    fun e h script rest hs => ofInput_of_failure path hs sink⟩
  · intro s script hs
    obtain ⟨ts, hts, hheld, hflushes, houtcome⟩ := exists_ofInput_text path hs sink
    refine ⟨ts, hts, ?_⟩
    intro all fits line l
    have hroom : sink.hasRoom all = true ↔ fits := Sink.hasRoom_iff_of_held_eq_empty rfl all
    refine ⟨?_, ?_, ?_, ?_, ?_⟩
    · rw [hheld]
      exact Sink.toList_held_write_of_held_eq_empty rfl all
    · intro hfits
      rw [if_neg (mt hroom.1 hfits)] at houtcome
      rw [if_neg fun h => hfits (hroom.1 h.1)] at hflushes
      exact ⟨houtcome, hflushes⟩
    · intro hfits b behind hdrop
      rw [if_pos (hroom.2 hfits), hdrop] at houtcome
      rw [hdrop, if_neg fun h => List.cons_ne_nil b behind h.2] at hflushes
      exact ⟨houtcome, hflushes, toNat_lineBehind_one⟩
    · intro hfits hdrop
      rw [if_pos (hroom.2 hfits), hdrop] at houtcome
      rw [if_pos ⟨hroom.2 hfits, hdrop⟩] at hflushes
      refine ⟨hflushes, ?_, ?_⟩
      · rintro e rfl
        exact houtcome
      · rintro rfl
        exact houtcome
    · intro n hn
      -- a listing succeeds only if it is flushed, and then all lines have been taken
      rw [show l.outcome = _ from houtcome] at hn
      split at hn
      · case isTrue hall =>
        split at hn
        · contradiction
        · obtain rfl : ts.length = n := Except.ok.inj hn
          rw [hheld, Sink.toList_held_write, Sink.fitting_of_hasRoom hall]
          exact count_newline_bytesOf ts
        · contradiction
      · contradiction
  · exact congrArg (· ++ "\n") t.text_eq
  · intro h
    simp [sink, Sink.writeFailure, h]

end Listing

end ArithLex
