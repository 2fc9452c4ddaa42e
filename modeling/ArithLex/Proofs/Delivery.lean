import ArithLex.Proofs.Drivers

/-!
# What the reader delivers

Only reads take events from the input, and only the line feeds among the bytes that they deliver are
counted. `c.ReadsTo d` says so of two cursors: between them the reader has delivered some signals,
and the line has gone up by their line feeds. Which byte is pending plays no part. The relation
composes, and everything that is built on reads obeys it: scans (`readsTo_nextToken`), collecting
tokens (`readsTo_tokens`), sessions and token streams.

A fault of a scan is placed where the scan leaves the cursor (`arisesAt_of_nextToken`).
-/

namespace ArithLex

theorem Signal.count_filterMap_byte? (b : Byte) (signals : List Signal) :
    (signals.filterMap Signal.byte?).count b = signals.count (.byte b) := by
  induction signals with
  | nil => rfl
  | cons x signals ih =>
    rw [List.filterMap_cons]
    cases x with
    | byte x => simp [List.count_cons, ih]
    | finish => simp [ih]
    | failure e h => simp [ih]

namespace Cursor

/-- Between the two cursors the reader has delivered some signals, and the line feeds among their
bytes have been counted. -/
structure ReadsTo (c d : Cursor) : Prop where
  name : d.name = c.name
  rest : ∃ taken, c.rest.signals = taken ++ d.rest.signals ∧
    d.line = lineBehind c.line (taken.filterMap Signal.byte?)

namespace ReadsTo

variable {c d e : Cursor}

theorem refl (c : Cursor) : ReadsTo c c where
  name := rfl
  rest := ⟨[], rfl, (lineBehind_nil c.line).symm⟩

/-- Nothing is delivered between single signals and the events that give them. -/
theorem facing_signals {name : String} {line : UInt32} (hname : c.name = name)
    (hline : c.line = line) : ReadsTo (facing name line c.rest.signals) c where
  name := hname
  rest := ⟨[], by rw [Script.signals_unchunked, List.nil_append], by rw [hline]; simp⟩

theorem trans (h : ReadsTo c d) (h' : ReadsTo d e) : ReadsTo c e where
  name := h'.name.trans h.name
  rest := by
    obtain ⟨taken, hrest, hline⟩ := h.rest
    obtain ⟨taken', hrest', hline'⟩ := h'.rest
    refine ⟨taken ++ taken', ?_, ?_⟩
    · rw [hrest, hrest', List.append_assoc]
    · rw [hline', hline, List.filterMap_append, lineBehind_append]

end ReadsTo

/-! ## Moves -/

theorem readsTo_unread (c : Cursor) (b : Byte) : c.ReadsTo (c.unread b) where
  name := rfl
  rest := ⟨[], rfl, (lineBehind_nil c.line).symm⟩

/-- The loop of a read delivers one signal, or none where the script has ended. -/
theorem readsTo_readEvents (name : String) (pending : Option Byte) (line : UInt32)
    (script : Script) : ReadsTo ⟨name, pending, line, script⟩ (readEvents name line script).2 := by
  induction script with
  | nil => exact ⟨rfl, [], rfl, (lineBehind_nil line).symm⟩
  | cons e script ih =>
    rcases e with (_ | ⟨b, bytes⟩) | _ | e
    · exact ⟨ih.name, ih.rest⟩
    · exact ⟨rfl, [.byte b], by simp [readEvents], (lineBehind_singleton line b).symm⟩
    · exact ⟨rfl, [.finish], rfl, (lineBehind_nil line).symm⟩
    · cases he : e.isRetried with
      | true =>
        obtain ⟨taken, hrest, hline⟩ := ih.rest
        refine ⟨?_, taken, ?_, ?_⟩
        · simpa [readEvents, he] using ih.name
        · simpa [readEvents, he, Event.signals_failure_of_isRetried he] using hrest
        · simpa [readEvents, he] using hline
      | false =>
        have hread : readEvents name line (.failure e :: script) =
            (.fault (.cannotRead name e), ⟨name, none, line, script⟩) := by simp [readEvents, he]
        rw [hread]
        exact ⟨rfl, [.failure e he], by simp [Event.signals_failure he],
          (lineBehind_nil line).symm⟩

theorem readsTo_read (c : Cursor) : c.ReadsTo c.read.2 := by
  obtain ⟨name, pending, line, rest⟩ := c
  cases pending with
  | some b => exact ⟨rfl, [], rfl, (lineBehind_nil line).symm⟩
  | none => exact readsTo_readEvents name none line rest

/-! ## Scans

A scan is made of reads and of bytes handed back, so that what these keep is kept by the scan. -/

section Keeps

variable {P : Cursor → Prop} {c : Cursor}

theorem passBlanks_keeps (hread : ∀ d, P d → P d.read.2) (hc : P c) : P c.passBlanks.2 := by
  -- along the blanks that are read
  induction c using read_induction with
  | step c ih =>
    have hkept := hread c hc
    rw [passBlanks_eq]
    rcases h : c.read with ⟨b | _ | f, c'⟩
    · rw [h] at hkept
      simp only
      split
      · exact ih b c' h hkept
      · exact hkept
    all_goals
      rw [h] at hkept
      exact hkept

theorem literal_keeps (hread : ∀ d, P d → P d.read.2) (hunread : ∀ d b, P d → P (d.unread b))
    (v : Int64) (hc : P c) : P (c.literal v).2 := by
  -- along the digits that are read
  induction c using read_induction generalizing v with
  | step c ih =>
    have hkept := hread c hc
    rw [literal_eq]
    rcases h : c.read with ⟨b | _ | f, c'⟩
    · rw [h] at hkept
      simp only
      split
      · exact ih b c' h _ hkept
      · exact hunread c' b hkept
    all_goals
      rw [h] at hkept
      exact hkept

theorem nextToken_keeps (hread : ∀ d, P d → P d.read.2) (hunread : ∀ d b, P d → P (d.unread b))
    (hc : P c) : P c.nextToken.2 := by
  have hpass := passBlanks_keeps hread hc
  unfold nextToken
  split
  · rename_i b c' h
    rw [h] at hpass
    split
    · exact hpass
    · split
      · exact literal_keeps hread hunread _ hpass
      · exact hpass
  all_goals
    rename_i h
    rw [h] at hpass
    exact hpass

end Keeps

theorem readsTo_nextToken (c : Cursor) : c.ReadsTo c.nextToken.2 :=
  nextToken_keeps (P := c.ReadsTo) (fun d h => h.trans d.readsTo_read)
    (fun d b h => h.trans (d.readsTo_unread b)) (.refl c)

theorem readsTo_tokens (c : Cursor) : c.ReadsTo c.tokens.2 := by
  -- along the scans that collecting makes
  induction c using token_induction with
  | step c ih =>
    have hscan := readsTo_nextToken c
    rw [tokens_eq]
    match h : c.nextToken with
    | (.item t, c') =>
      rw [h] at hscan
      exact hscan.trans (ih t c' h)
    | (.ended, c') =>
      rw [h] at hscan
      exact hscan
    | (.fault f, c') =>
      rw [h] at hscan
      exact hscan

end Cursor

/-! ## Places of faults -/

/-- The fault is an illegal byte where the cursor stands, or a failed read of its input. -/
def Fault.ArisesAt (f : Fault) (c : Cursor) : Prop :=
  (∃ b, f = .illegalByte b c.position) ∨ ∃ e, f = .cannotRead c.name e

namespace Cursor

variable {c : Cursor} {f : Fault}

theorem arisesAt_of_readEvents {name : String} {line : UInt32} {script : Script}
    (h : (readEvents name line script).1 = .fault f) :
    f.ArisesAt (readEvents name line script).2 := by
  induction script with
  | nil => contradiction
  | cons e script ih =>
    rcases e with (_ | ⟨b, bytes⟩) | _ | e
    · exact ih h
    · contradiction
    · contradiction
    · cases he : e.isRetried with
      | true =>
        simp only [readEvents, he, if_true] at h ⊢
        exact ih h
      | false =>
        simp only [readEvents, he, Bool.false_eq_true, if_false] at h ⊢
        obtain rfl : Fault.cannotRead name e = f := by simpa using h
        exact .inr ⟨e, rfl⟩

theorem arisesAt_of_read (h : c.read.1 = .fault f) : f.ArisesAt c.read.2 := by
  obtain ⟨name, pending, line, rest⟩ := c
  cases pending with
  | some b => contradiction
  | none => exact arisesAt_of_readEvents h

theorem arisesAt_of_passBlanks (h : c.passBlanks.1 = .fault f) : f.ArisesAt c.passBlanks.2 := by
  -- along the blanks that are read
  induction c using read_induction with
  | step c ih =>
    have hplace := arisesAt_of_read (c := c) (f := f)
    rw [passBlanks_eq] at h ⊢
    rcases hread : c.read with ⟨b | _ | g, c'⟩
    · simp only [hread] at h ⊢
      split at h
      · rename_i hb
        rw [if_pos hb]
        exact ih b c' hread h
      · contradiction
    · simp [hread] at h
    · simp only [hread] at h hplace ⊢
      exact hplace h

theorem arisesAt_of_literal {v : Int64} (h : (c.literal v).1 = .fault f) :
    f.ArisesAt (c.literal v).2 := by
  -- along the digits that are read
  induction c using read_induction generalizing v with
  | step c ih =>
    have hplace := arisesAt_of_read (c := c) (f := f)
    rw [literal_eq] at h ⊢
    rcases hread : c.read with ⟨b | _ | g, c'⟩
    · simp only [hread] at h ⊢
      split at h
      · rename_i hb
        rw [if_pos hb]
        exact ih b c' hread h
      · contradiction
    · simp [hread] at h
    · simp only [hread] at h hplace ⊢
      exact hplace (by simpa using h)

/-- A scan reports a fault where it has come to. -/
theorem arisesAt_of_nextToken (h : c.nextToken.1 = .fault f) : f.ArisesAt c.nextToken.2 := by
  have hpass := arisesAt_of_passBlanks (c := c) (f := f)
  unfold nextToken at h ⊢
  split at h
  · rename_i b c' _
    split at h
    · simp at h
    · split at h
      · rename_i hb
        rw [if_pos hb]
        exact arisesAt_of_literal h
      · rename_i hb
        obtain rfl : Fault.illegalByte b c'.position = f := by simpa using h
        rw [if_neg hb]
        exact .inl ⟨b, rfl⟩
  · simp at h
  · rename_i g c' hg
    rw [hg] at hpass
    obtain rfl : g = f := by simpa using h
    exact hpass rfl

theorem arisesAt_of_tokens (h : c.tokens.1 = .error f) : f.ArisesAt c.tokens.2 := by
  -- along the scans that collecting makes
  induction c using token_induction with
  | step c ih =>
    rw [tokens_eq] at h ⊢
    match hscan : c.nextToken with
    | (.item t, c') =>
      rw [hscan] at h
      refine ih t c' hscan ?_
      rcases htokens : c'.tokens.1 with g | ts
      · simpa [htokens, Except.map] using h
      · simp [htokens, Except.map] at h
    | (.ended, c') => simp [hscan] at h
    | (.fault g, c') =>
      have hplace := arisesAt_of_nextToken (congrArg Prod.fst hscan)
      rw [hscan] at h hplace
      obtain rfl : g = f := by simpa using h
      exact hplace

end Cursor

/-! ## Sessions and streams -/

theorem Session.readsTo_advance (s : Session) : s.cursor.ReadsTo s.advance.2.cursor := by
  rw [cursor_advance]
  exact s.cursor.readsTo_nextToken

theorem Session.arisesAt_of_advance {s : Session} {f : Fault} (h : s.advance.1 = .fault f) :
    f.ArisesAt s.advance.2.cursor := by
  rw [fst_advance] at h
  rw [cursor_advance]
  exact Cursor.arisesAt_of_nextToken h

namespace TokenStream

theorem readsTo_pull (s : TokenStream) : s.cursor.ReadsTo s.pull.2.cursor := by
  have hscan := s.session.readsTo_advance
  unfold pull
  split
  · exact .refl _
  · split
    all_goals
      rename_i h
      rw [h] at hscan
      exact hscan

theorem arisesAt_of_pull {s : TokenStream} {f : Fault} (h : s.pull.1 = some (.error f)) :
    f.ArisesAt s.pull.2.cursor := by
  obtain ⟨⟨c, current⟩, _ | _⟩ := s
  · rcases hscan : c.nextToken with ⟨t | _ | g, d⟩
    · rw [pull_of_item hscan] at h
      simp at h
    · rw [pull_of_ended hscan] at h
      contradiction
    · have hplace := Cursor.arisesAt_of_nextToken (congrArg Prod.fst hscan)
      rw [pull_of_fault hscan] at h ⊢
      rw [hscan] at hplace
      obtain rfl : g = f := by simpa using h
      exact hplace
  · contradiction

theorem readsTo_drain (s : TokenStream) : s.cursor.ReadsTo s.drain.2.cursor := by
  -- along the pulls that draining makes
  induction s using pull_induction with
  | step s ih =>
    have hpull := readsTo_pull s
    rw [drain_eq]
    match h : s.pull with
    | (some r, s') =>
      rw [h] at hpull
      exact hpull.trans (ih r s' h)
    | (none, s') =>
      rw [h] at hpull
      exact hpull

/-- A fault is the last item of a stream, so that it arises where the stream is left. -/
theorem arisesAt_of_mem_drain {s : TokenStream} {f : Fault} (h : .error f ∈ s.drain.1) :
    f.ArisesAt s.drain.2.cursor := by
  -- along the pulls that draining makes
  induction s using pull_induction with
  | step s ih =>
    rw [drain_eq] at h ⊢
    match hpull : s.pull with
    | (some (.ok t), s') =>
      rw [hpull] at h
      exact ih _ s' hpull (by simpa using h)
    | (some (.error g), s') =>
      have hplace := arisesAt_of_pull (congrArg Prod.fst hpull)
      have hclosed := closed_of_pull_eq_error (congrArg Prod.fst hpull)
      rw [hpull] at hplace hclosed h
      simp only [drain_of_closed hclosed] at h ⊢
      obtain rfl : f = g := by simpa using h
      exact hplace
    | (none, s') => simp [hpull] at h

end TokenStream

end ArithLex
