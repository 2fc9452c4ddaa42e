import Mathlib.Data.List.DropRight
import Mathlib.Data.List.Induction
import ArithLex.Script

/-!
# Normal forms of scripts

Scripts can differ in how their data is cut into chunks, in the reads that are interrupted, and in
the ends of input that nothing follows. The normal form of a script (`Script.normalForm`) forgets
these differences, event by event. On the side of the signals there is only one thing to forget: the
ends of input behind the last other signal (`Signal.settled`).

The main result is `Script.normalForm_eq_iff`: two scripts have the same normal form exactly if
their signals are the same but for ends of input behind the last other signal.
-/

namespace ArithLex

/-! ## The normal form -/

/-- Whether an event gives no signal. -/
def Event.isSilent : Event → Bool
  | data bytes => bytes.isEmpty
  | finish => false
  | failure e => e.isRetried

theorem Event.signals_of_isSilent {e : Event} (h : e.isSilent = true) : e.signals = [] := by
  rcases e with bytes | _ | e
  · simpa [isSilent] using h
  · contradiction
  · exact signals_failure_of_isRetried h

namespace Script

/-- Puts data in front of a script, joined to the data that the script starts with. -/
def consData (bytes : List Byte) : Script → Script
  | .data more :: script => .data (bytes ++ more) :: script
  | script => .data bytes :: script

/-- Joins chunks of data that stand next to each other. -/
def joinData : Script → Script
  | [] => []
  | .data bytes :: script => consData bytes (joinData script)
  | .finish :: script => .finish :: joinData script
  | .failure e :: script => .failure e :: joinData script

/-- The normal form of a script. Silent events are left out first; then chunks of data that stand
next to each other are joined; then ends of input are left out behind the last other event. -/
def normalForm (script : Script) : Script :=
  (joinData (script.filter (!·.isSilent))).rdropWhile (· = .finish)

end Script

/-- Signals without the ends of input behind the last other signal. -/
def Signal.settled (signals : List Signal) : List Signal :=
  signals.rdropWhile (· = .finish)

theorem Signal.settled_concat_finish (signals : List Signal) :
    settled (signals ++ [.finish]) = settled signals :=
  List.rdropWhile_concat_pos _ _ _ (by simp)

theorem Signal.settled_concat_of_ne {x : Signal} (hx : x ≠ .finish) (signals : List Signal) :
    settled (signals ++ [x]) = signals ++ [x] :=
  List.rdropWhile_concat_neg _ _ _ (by simp [hx])

/-- At the front, an end of input is left out exactly if nothing is left behind it. -/
theorem Signal.settled_cons (x : Signal) (rest : List Signal) :
    settled (x :: rest) = if x = .finish ∧ settled rest = [] then [] else x :: settled rest := by
  induction rest using List.reverseRecOn with
  | nil =>
    by_cases hx : x = .finish
    · rw [hx, if_pos ⟨rfl, rfl⟩]
      exact settled_concat_finish []
    · rw [if_neg fun h => hx h.1]
      exact settled_concat_of_ne hx []
  | append_singleton rest y ih =>
    rw [← List.cons_append]
    by_cases hy : y = .finish
    · simp only [hy, settled_concat_finish, ih]
    · rw [settled_concat_of_ne hy, settled_concat_of_ne hy, if_neg (by simp), List.cons_append]

/-! ## Joined data -/

namespace Script

theorem signals_consData (bytes : List Byte) (script : Script) :
    (consData bytes script).signals = bytes.map .byte ++ script.signals := by
  match script with
  | [] => simp [consData]
  | .data more :: script => simp [consData]
  | .finish :: script => simp [consData]
  | .failure e :: script => simp [consData]

theorem signals_joinData (script : Script) : (joinData script).signals = script.signals := by
  induction script with
  | nil => rfl
  | cons e script ih =>
    rcases e with bytes | _ | e
    · rw [joinData, signals_consData, ih, signals_cons, Event.signals_data]
    · rw [joinData, signals_cons, signals_cons, ih]
    · rw [joinData, signals_cons, signals_cons, ih]

theorem signals_filter (script : Script) :
    signals (script.filter (!·.isSilent)) = script.signals := by
  induction script with
  | nil => rfl
  | cons e script ih =>
    by_cases he : e.isSilent = true
    · simp [he, ih, Event.signals_of_isSilent he]
    · simp [he, ih]

theorem consData_consData (a b : List Byte) (script : Script) :
    consData a (consData b script) = consData (a ++ b) script := by
  match script with
  | [] => rfl
  | .data more :: script => simp [consData]
  | .finish :: script => rfl
  | .failure e :: script => rfl

/-! ## Scripts from signals -/

/-- The script that gives some signals with as few events as possible. -/
def ofSignals : List Signal → Script
  | [] => []
  | .byte b :: rest => consData [b] (ofSignals rest)
  | .finish :: rest => .finish :: ofSignals rest
  | .failure e _ :: rest => .failure e :: ofSignals rest

theorem ofSignals_bytes {bytes : List Byte} (hne : bytes ≠ []) (rest : List Signal) :
    ofSignals (bytes.map .byte ++ rest) = consData bytes (ofSignals rest) := by
  obtain ⟨b, bytes, rfl⟩ := List.exists_cons_of_ne_nil hne
  induction bytes generalizing b with
  | nil => rfl
  | cons b' bytes ih =>
    -- one byte joins the data that the bytes behind it make
    have htail := ih b' (List.cons_ne_nil b' bytes)
    rw [List.map_cons, List.cons_append, ofSignals, htail, consData_consData]
    rfl

/-- Without silent events, joined data is all that the signals leave to know of a script. -/
theorem joinData_filter (script : Script) :
    joinData (script.filter (!·.isSilent)) = ofSignals script.signals := by
  induction script with
  | nil => rfl
  | cons e script ih =>
    by_cases he : e.isSilent = true
    · rw [List.filter_cons_of_neg (by simp [he]), ih, signals_cons, Event.signals_of_isSilent he,
        List.nil_append]
    · rw [List.filter_cons_of_pos (by simp [he]), signals_cons]
      rcases e with bytes | _ | e
      · have hne : bytes ≠ [] := by simpa [Event.isSilent] using he
        rw [joinData, ih, Event.signals_data, ofSignals_bytes hne]
      · rw [joinData, ih]
        rfl
      · have hreported : e.isRetried = false := by simpa [Event.isSilent] using he
        rw [joinData, ih, Event.signals_failure hreported]
        rfl

/-! ## Trailing ends of input -/

theorem consData_concat_finish (bytes : List Byte) (script : Script) :
    consData bytes (script ++ [.finish]) = consData bytes script ++ [.finish] := by
  match script with
  | [] => rfl
  | .data more :: script => rfl
  | .finish :: script => rfl
  | .failure e :: script => rfl

theorem ofSignals_concat_finish (signals : List Signal) :
    ofSignals (signals ++ [.finish]) = ofSignals signals ++ [.finish] := by
  induction signals with
  | nil => rfl
  | cons x signals ih =>
    rcases x with b | _ | e
    · rw [List.cons_append, ofSignals, ofSignals, ih, consData_concat_finish]
    · rw [List.cons_append, ofSignals, ofSignals, ih, List.cons_append]
    · rw [List.cons_append, ofSignals, ofSignals, ih, List.cons_append]

/-- Ends of input behind the last other signal do not show in the normal form. -/
theorem rdropWhile_ofSignals (signals : List Signal) :
    (ofSignals signals).rdropWhile (· = .finish) =
      (ofSignals (Signal.settled signals)).rdropWhile (· = .finish) := by
  induction signals using List.reverseRecOn with
  | nil => rfl
  | append_singleton signals x ih =>
    by_cases hx : x = .finish
    · rw [hx, Signal.settled_concat_finish, ← ih, ofSignals_concat_finish,
        List.rdropWhile_concat_pos _ _ _ (by simp)]
    · rw [Signal.settled_concat_of_ne hx]

/-- Nor do ends of input behind the last other event show in the settled signals. -/
theorem settled_signals_rdropWhile (script : Script) :
    Signal.settled (signals (script.rdropWhile (· = .finish))) =
      Signal.settled script.signals := by
  induction script using List.reverseRecOn with
  | nil => rfl
  | append_singleton script e ih =>
    by_cases he : e = .finish
    · have hsignals : signals (script ++ [e]) = signals script ++ [.finish] := by
        rw [he, signals_append]
        rfl
      rw [hsignals, Signal.settled_concat_finish, List.rdropWhile_concat_pos _ _ _ (by simp [he]),
        ih]
    · rw [List.rdropWhile_concat_neg _ _ _ (by simp [he])]

/-! ## What the normal form keeps -/

theorem normalForm_eq (script : Script) :
    script.normalForm = (ofSignals (Signal.settled script.signals)).rdropWhile (· = .finish) := by
  rw [normalForm, joinData_filter, rdropWhile_ofSignals]

theorem settled_signals_normalForm (script : Script) :
    Signal.settled script.normalForm.signals = Signal.settled script.signals := by
  rw [normalForm, settled_signals_rdropWhile, signals_joinData, signals_filter]

/-- Two scripts have the same normal form exactly if their signals are the same but for ends of
input behind the last other signal. -/
theorem normalForm_eq_iff (s t : Script) :
    s.normalForm = t.normalForm ↔ Signal.settled s.signals = Signal.settled t.signals := by
  constructor
  · intro h
    rw [← settled_signals_normalForm, h, settled_signals_normalForm]
  · intro h
    rw [normalForm_eq, h, ← normalForm_eq]

-- Chunks, an interrupted read inside a literal and the ends of input at the end make no difference.
example : normalForm [.data (utf8 "1"), .failure ⟨.interrupted, ""⟩, .data [],
      .data (utf8 "2+"), .finish, .failure ⟨.interrupted, ""⟩, .finish] =
    [.data (utf8 "12+")] := by
  decide

end Script

end ArithLex
