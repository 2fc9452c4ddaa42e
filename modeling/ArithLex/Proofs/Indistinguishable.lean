import ArithLex.Program
import ArithLex.Proofs.NormalForm
import ArithLex.Proofs.Scan
import ArithLex.Proofs.View

/-!
# What clients can tell of a script

A read passes over empty chunks and interrupted reads, and leaves what is left of a chunk to the
next one, so that it is settled by the signals of the script alone. Where the signals run out, every
read meets the end of the input, so that a cursor may as well drop the ends of input behind the last
other signal (`Cursor.settled`). This is a view of the cursor which changes no result, no line and
no position; hence it changes nothing that a client program sees (`Program.run_settled`). Reads
alone are enough to tell any other two cursors apart (`settled_eq_of_readsAlike`).

The main result is `Script.normalForm_eq_iff_run_eq`: two scripts have the same normal form exactly
if no client program sees a difference between them.
-/

namespace ArithLex

/-! ## Settled cursors -/

namespace Cursor

/-- The cursor with its events taken apart into single signals, and without the ends of input behind
the last other signal. -/
def settled (c : Cursor) : Cursor :=
  { c with rest := Script.unchunked (Signal.settled c.rest.signals) }

theorem settled_unchunked (c : Cursor) : c.unchunked.settled = c.settled := by
  rw [settled, unchunked, Script.signals_unchunked]
  rfl

theorem settled_facing (name : String) (line : UInt32) (signals : List Signal) :
    (facing name line signals).settled = facing name line (Signal.settled signals) := by
  rw [settled, Script.signals_unchunked]

theorem read_settled_facing (name : String) (line : UInt32) (signals : List Signal) :
    (facing name line signals).settled.read =
      ((facing name line signals).read.1, (facing name line signals).read.2.settled) := by
  rw [settled_facing]
  match signals with
  | [] => rfl
  | .byte b :: rest =>
    rw [Signal.settled_cons, if_neg (by simp), read_byte, read_byte, settled_facing]
  | .failure e h :: rest =>
    rw [Signal.settled_cons, if_neg (by simp), read_failure, read_failure, settled_facing]
  | .finish :: rest =>
    -- an end of input is met in any case, whether it is dropped or not
    rw [Signal.settled_cons]
    by_cases hrest : Signal.settled rest = []
    · rw [if_pos ⟨rfl, hrest⟩, read_nil, read_finish, settled_facing, hrest]
    · rw [if_neg fun h => hrest h.2, read_finish, read_finish, settled_facing]

theorem read_settled (c : Cursor) : c.settled.read = (c.read.1, c.read.2.settled) := by
  have hread := c.read_unchunked
  rw [← c.settled_unchunked, ← c.read.2.settled_unchunked]
  obtain ⟨hresult, hleft⟩ := Prod.ext_iff.1 hread
  simp only at hresult hleft
  rw [← hresult, ← hleft]
  obtain ⟨name, pending, line, rest⟩ := c
  cases pending with
  | some b => rfl
  | none => exact read_settled_facing name line rest.signals

/-- A settled cursor is seen to give the same results. -/
def settledView : View where
  see := settled
  rename := id
  read c := by rw [read_settled, Pull.mapFault_id]
  unread _ _ := rfl
  illegalByte _ _ := rfl

theorem perform_settled (c : Cursor) (step : CursorStep) :
    c.settled.perform step = ((c.perform step).1, (c.perform step).2.settled) := by
  cases step with
  | read => simp only [perform, read_settled]
  | unread b => rfl
  | beginText => rfl
  | line => rfl
  | position => rfl
  | tokens =>
    have htokens := settledView.tokens c
    simp only [settledView, mapError_id] at htokens
    simp only [perform, htokens]

end Cursor

/-! ## Sessions and streams -/

open Cursor (settledView)

theorem Session.perform_settled (s : Session) (step : SessionStep) :
    (settledView.session s).perform step =
      ((s.perform step).1, settledView.session (s.perform step).2) := by
  cases step with
  | restart => rfl
  | advance =>
    have hadvance := settledView.advance s
    rw [show settledView.rename = id from rfl, Pull.mapFault_id] at hadvance
    simp only [perform, hadvance]
  | current => rfl
  | line => rfl

theorem TokenStream.perform_settled (s : TokenStream) (step : StreamStep) :
    (settledView.stream s).perform step =
      ((s.perform step).1, settledView.stream (s.perform step).2) := by
  have hid : (Except.mapError settledView.rename : Except Fault Token → _) = id := by
    funext r
    exact mapError_id r
  cases step with
  | pull =>
    have hpull := settledView.pull s
    rw [hid, Option.map_id] at hpull
    simp only [perform, hpull, id]
  | drain =>
    have hdrain := settledView.drain s
    rw [hid, List.map_id] at hdrain
    simp only [perform, hdrain]

/-! ## Programs -/

/-- Steps that commute with a map of states commute with it one after the other. -/
theorem performAll_map {α σ β : Type} (perform : σ → α → β × σ) (f : σ → σ)
    (h : ∀ s a, perform (f s) a = ((perform s a).1, f (perform s a).2)) (s : σ) (as : List α) :
    performAll perform (f s) as =
      ((performAll perform s as).1, f (performAll perform s as).2) := by
  induction as generalizing s with
  | nil => rfl
  | cons a as ih => simp only [performAll, h, ih]

theorem Episode.run_settled (c : Cursor) (e : Episode) :
    e.run c.settled = ((e.run c).1, (e.run c).2.settled) := by
  cases e with
  | step s =>
    simp only [run, Cursor.perform_settled]
    rfl
  | session steps =>
    have hbegin : Session.begin c.settled = settledView.session (Session.begin c) := rfl
    have hsteps := performAll_map (fun (s : Session) x => ((s.perform x).2.entry (s.perform x).1,
      (s.perform x).2)) settledView.session (fun s x => by rw [Session.perform_settled]; rfl)
    simp only [run, hbegin, hsteps]
    rfl
  | stream steps =>
    have hopen : TokenStream.ofCursor c.settled =
        settledView.stream (TokenStream.ofCursor c) := rfl
    have hsteps := performAll_map (fun (s : TokenStream) x => (Entry.stream (s.perform x).1,
      (s.perform x).2)) settledView.stream (fun s x => by rw [TokenStream.perform_settled])
    simp only [run, hopen, hsteps]
    rfl

/-- A client program sees the same on a settled cursor. -/
theorem Program.run_settled (c : Cursor) (program : Program) :
    program.run c.settled = ((program.run c).1, (program.run c).2.settled) := by
  simp only [run, performAll_map Episode.run Cursor.settled Episode.run_settled]

theorem Program.fst_run_eq_of_settled_eq {c d : Cursor} (h : c.settled = d.settled)
    (program : Program) : (program.run c).1 = (program.run d).1 := by
  have hc := congrArg Prod.fst (run_settled c program)
  have hd := congrArg Prod.fst (run_settled d program)
  rw [h] at hc
  exact hc.symm.trans hd

/-! ## Telling cursors apart -/

/-- The program that reads `n` times. -/
def Program.reads (n : Nat) : Program :=
  List.replicate n (.step .read)

theorem Program.fst_run_reads_succ (c : Cursor) (n : Nat) :
    ((reads (n + 1)).run c).1 =
      .cursor (.byte c.read.1) c.read.2.line :: ((reads n).run c.read.2).1 := rfl

namespace Cursor

/-- However often the two cursors are read, the reads give the same. -/
def ReadsAlike (c d : Cursor) : Prop :=
  ∀ n, ((Program.reads n).run c).1 = ((Program.reads n).run d).1

theorem ReadsAlike.symm {c d : Cursor} (h : ReadsAlike c d) : ReadsAlike d c :=
  fun n => (h n).symm

theorem ReadsAlike.fst_read_eq {c d : Cursor} (h : ReadsAlike c d) : c.read.1 = d.read.1 := by
  have hone := h 1
  rw [Program.fst_run_reads_succ, Program.fst_run_reads_succ] at hone
  simpa using (Entry.cursor.inj (List.cons.inj hone).1).1

theorem ReadsAlike.read {c d : Cursor} (h : ReadsAlike c d) : ReadsAlike c.read.2 d.read.2 := by
  intro n
  have hsucc := h (n + 1)
  rw [Program.fst_run_reads_succ, Program.fst_run_reads_succ] at hsucc
  exact (List.cons.inj hsucc).2

/-- A read shows which signal it meets. -/
theorem signal_eq_of_fst_read_eq {name : String} {line : UInt32} {x y : Signal}
    {xs ys : List Signal}
    (h : (facing name line (x :: xs)).read.1 = (facing name line (y :: ys)).read.1) : x = y := by
  cases x <;> cases y <;> simp_all

/-- If reads meet nothing but ends of input, then there is nothing else. -/
theorem settled_eq_nil_of_readsAlike {name : String} {line : UInt32} {ys : List Signal}
    (h : ReadsAlike (facing name line []) (facing name line ys)) : Signal.settled ys = [] := by
  induction ys with
  | nil => rfl
  | cons y ys ih =>
    have hy := h.fst_read_eq
    have htail := h.read
    cases y with
    | byte b => simp at hy
    | failure e h => simp at hy
    | finish => rw [Signal.settled_cons, if_pos ⟨rfl, ih htail⟩]

/-- Reads tell any two lists of signals apart, but for ends of input behind the last other
signal. -/
theorem settled_eq_of_readsAlike {name : String} {line : UInt32} {xs ys : List Signal}
    (h : ReadsAlike (facing name line xs) (facing name line ys)) :
    Signal.settled xs = Signal.settled ys := by
  induction xs generalizing line ys with
  | nil => exact (settled_eq_nil_of_readsAlike h).symm
  | cons x xs ih =>
    cases ys with
    | nil => exact settled_eq_nil_of_readsAlike h.symm
    | cons y ys =>
      obtain rfl : x = y := signal_eq_of_fst_read_eq h.fst_read_eq
      have htail : Signal.settled xs = Signal.settled ys := by
        -- the same signal has moved both lines alike
        have hread := h.read
        cases x with
        | byte b => exact ih hread
        | finish => exact ih hread
        | failure e he =>
          rw [read_failure, read_failure] at hread
          exact ih hread
      rw [Signal.settled_cons, Signal.settled_cons, htail]

end Cursor

/-! ## Scripts -/

theorem Cursor.ofScript_settled (name : String) (script : Script) :
    (ofScript name script).settled =
      ⟨name, some Byte.newline, 1, Script.unchunked (Signal.settled script.signals)⟩ := rfl

theorem Cursor.ReadsAlike.unchunked {c d : Cursor} (h : ReadsAlike c d) :
    ReadsAlike c.unchunked d.unchunked := by
  have hreads (c : Cursor) (n : Nat) :
      ((Program.reads n).run c.unchunked).1 = ((Program.reads n).run c).1 := by
    induction n generalizing c with
    | zero => rfl
    | succ n ih =>
      rw [Program.fst_run_reads_succ, Program.fst_run_reads_succ, read_unchunked]
      simp only [ih]
      rfl
  intro n
  rw [hreads, hreads, h n]

/-- Two scripts have the same normal form exactly if no client program sees a difference between
them, whatever the name of the input: every step gives the same entry for both. -/
theorem Script.normalForm_eq_iff_run_eq (s t : Script) :
    s.normalForm = t.normalForm ↔
      ∀ (name : String) (program : Program),
        (program.run (Cursor.ofScript name s)).1 = (program.run (Cursor.ofScript name t)).1 := by
  rw [normalForm_eq_iff]
  constructor
  · intro h name program
    apply Program.fst_run_eq_of_settled_eq
    rw [Cursor.ofScript_settled, Cursor.ofScript_settled, h]
  · intro h
    -- the first read takes the line feed that is pending where a text begins
    have hreads : Cursor.ReadsAlike (Cursor.ofScript "" s) (Cursor.ofScript "" t) :=
      fun n => h "" (Program.reads n)
    exact Cursor.settled_eq_of_readsAlike hreads.read.unchunked

end ArithLex
