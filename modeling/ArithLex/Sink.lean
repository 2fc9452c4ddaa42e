import ArithLex.Script

/-!
# Sinks

A sink takes the bytes of a listing. It may have room for a limited number of them only. A write
then fills the room that is left, and is refused if any of its bytes found no place; a write for
which there is room, or a write of nothing, is never refused.
-/

namespace ArithLex

/-- The failure of a write that was cut short, where nothing more is known of it. -/
def IoFailure.shortWrite : IoFailure where
  kind := .other
  text := "failed to write whole buffer"

/-- Where bytes are written to, with the bytes it has taken so far. -/
structure Sink where
  /-- How many bytes the sink can take in all, if there is a limit. -/
  capacity : Option Nat := none
  /-- How a write is refused for which there is no room. -/
  refusal : IoFailure := .shortWrite
  /-- How a flush fails, if it does. -/
  flushFailure : Option IoFailure := none
  /-- The bytes taken so far. -/
  held : Array Byte := #[]
  /-- How often a flush has been asked for. -/
  flushes : Nat := 0
deriving DecidableEq, Repr

namespace Sink

/-- A device without room. It refuses every byte, and it has nothing to flush. -/
def full (refusal : IoFailure) : Sink where
  capacity := some 0
  refusal := refusal

/-- The part of some bytes for which a sink has room. -/
def fitting (s : Sink) (bytes : List Byte) : List Byte :=
  match s.capacity with
  | none => bytes
  | some n => bytes.take (n - s.held.size)

/-- Whether a sink has room for some bytes. -/
def hasRoom (s : Sink) (bytes : List Byte) : Bool :=
  match s.capacity with
  | none => true
  | some n => bytes.length ≤ n - s.held.size

/-- How a write is reported for which there is no room. An interrupted write is tried again; then
the sink takes nothing, and all that can be said is that the write was cut short. -/
def writeFailure (s : Sink) : IoFailure :=
  if s.refusal.isRetried then .shortWrite else s.refusal

/-- Writes bytes, as many as fit, and reports a failure if some did not. -/
def write (s : Sink) (bytes : List Byte) : Option IoFailure × Sink :=
  (if s.hasRoom bytes then none else some s.writeFailure,
    { s with held := s.held ++ s.fitting bytes })

/-- Flushes the sink, and reports how that failed if it did. A flush is not tried again. -/
def flush (s : Sink) : Option IoFailure × Sink :=
  (s.flushFailure, { s with flushes := s.flushes + 1 })

@[simp] theorem toList_held_write (s : Sink) (bytes : List Byte) :
    (s.write bytes).2.held.toList = s.held.toList ++ s.fitting bytes := by
  simp [write]

@[simp] theorem capacity_write (s : Sink) (bytes : List Byte) :
    (s.write bytes).2.capacity = s.capacity := rfl

@[simp] theorem flushFailure_write (s : Sink) (bytes : List Byte) :
    (s.write bytes).2.flushFailure = s.flushFailure := rfl

theorem fitting_of_hasRoom {s : Sink} {bytes : List Byte} (h : s.hasRoom bytes = true) :
    s.fitting bytes = bytes := by
  unfold hasRoom at h
  unfold fitting
  split
  · rfl
  · exact List.take_of_length_le (by simpa [*] using h)

/-! ## Empty sinks -/

/-- An empty sink has room for no more than it can take in all. -/
theorem hasRoom_iff_of_held_eq_empty {s : Sink} (h : s.held = #[]) (bytes : List Byte) :
    s.hasRoom bytes = true ↔ ∀ n, s.capacity = some n → bytes.length ≤ n := by
  rcases hcap : s.capacity with _ | n <;> simp [hasRoom, hcap, h]

/-- An empty sink takes the first bytes, as many as it can take in all. -/
theorem toList_held_write_of_held_eq_empty {s : Sink} (h : s.held = #[]) (bytes : List Byte) :
    (s.write bytes).2.held.toList = bytes.take (s.capacity.getD bytes.length) := by
  rcases hcap : s.capacity with _ | n <;> simp [fitting, hcap, h]

/-! ## Writing piece by piece

Two writes, one after the other, fill the sink as one write of both does. -/

theorem size_held_write (s : Sink) (bytes : List Byte) :
    (s.write bytes).2.held.size = s.held.size + (s.fitting bytes).length := by
  rw [← Array.length_toList, toList_held_write, List.length_append, Array.length_toList]

@[simp] theorem hasRoom_nil (s : Sink) : s.hasRoom [] = true := by
  unfold hasRoom
  split <;> simp

@[simp] theorem snd_write_nil (s : Sink) : (s.write []).2 = s := by
  have hfitting : s.fitting [] = [] := fitting_of_hasRoom s.hasRoom_nil
  simp [write, hfitting]

/-- There is room for two pieces if there is room for the second behind the first. -/
theorem hasRoom_append (s : Sink) (a b : List Byte) :
    s.hasRoom (a ++ b) = (s.hasRoom a && (s.write a).2.hasRoom b) := by
  have hsize := s.size_held_write a
  rcases hcap : s.capacity with _ | n
  · simp [hasRoom, hcap]
  · -- if the first piece fits, it leaves as much less room as it is long
    simp only [hasRoom, fitting, hcap, capacity_write, List.length_append, List.length_take]
      at hsize ⊢
    rw [hsize, ← Bool.decide_and, decide_eq_decide]
    omega

/-- A second write goes on where the first has ended. -/
theorem snd_write_append_of_hasRoom {s : Sink} {a : List Byte} (ha : s.hasRoom a = true)
    (b : List Byte) : (s.write (a ++ b)).2 = ((s.write a).2.write b).2 := by
  have hsize := s.size_held_write a
  have hfitting : s.fitting (a ++ b) = a ++ (s.write a).2.fitting b := by
    rw [fitting_of_hasRoom ha] at hsize
    rcases hcap : s.capacity with _ | n
    · simp [fitting, hcap]
    · simp only [hasRoom, hcap, decide_eq_true_eq] at ha
      simp only [fitting, hcap, capacity_write, hsize]
      rw [List.take_append, List.take_of_length_le ha, Nat.sub_sub]
  have hheld : (s.write (a ++ b)).2.held = ((s.write a).2.write b).2.held := by
    rw [← Array.toList_inj, toList_held_write, toList_held_write, toList_held_write, hfitting,
      fitting_of_hasRoom ha, List.append_assoc]
  simpa [write] using hheld

/-- A piece that does not fit leaves no room for what comes behind it. -/
theorem snd_write_append_of_not_hasRoom {s : Sink} {a : List Byte} (ha : s.hasRoom a = false)
    (b : List Byte) : (s.write (a ++ b)).2 = (s.write a).2 := by
  have hfitting : s.fitting (a ++ b) = s.fitting a := by
    rcases hcap : s.capacity with _ | n
    · simp [hasRoom, hcap] at ha
    · simp only [hasRoom, hcap, decide_eq_false_iff_not] at ha
      simp only [fitting, hcap]
      rw [List.take_append_of_le_length (by omega)]
  simp only [write, hfitting]

end Sink

end ArithLex
