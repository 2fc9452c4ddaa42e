import ArithLex.Session

/-!
# Token streams

A token stream gives the tokens from a cursor one by one. It scans with a session, and what it gives
behind a scan that has found a token is the token in the slot of the session (`pull_eq` says that
this is the token just found). It closes at the first end of input or fault, and a closed stream
never touches its cursor again, although the input behind that place may hold more. `drain` takes
all that is left, and `drain_eq` unrolls it by one item.
-/

namespace ArithLex

/-- A session that gives its tokens one by one until it is closed. -/
structure TokenStream where
  session : Session
  closed : Bool
deriving DecidableEq, Repr

namespace TokenStream

/-- Opens a stream where the cursor stands. -/
def ofCursor (c : Cursor) : TokenStream where
  session := .begin c
  closed := false

/-- The cursor of a stream. -/
def cursor (s : TokenStream) : Cursor :=
  s.session.cursor

/-- Takes the next token, or the fault that closes the stream. A closed stream gives nothing. -/
def pull (s : TokenStream) : Option (Except Fault Token) × TokenStream :=
  if s.closed then (none, s)
  else match s.session.advance with
    | (.item _, session) => (session.current.map .ok, { s with session })
    | (.ended, session) => (none, { session, closed := true })
    | (.fault f, session) => (some (.error f), { session, closed := true })

/-- Pulls `n` times, whatever the pulls give, and lists what they give. -/
def pulls : TokenStream → Nat → List (Option (Except Fault Token)) × TokenStream
  | s, 0 => ([], s)
  | s, n + 1 =>
    let (r, s) := s.pull
    let (rs, s) := s.pulls n
    (r :: rs, s)

/-- A stream that is not closed gives the token that its scan has found, whatever the slot held
before. -/
theorem pull_eq (c : Cursor) (current : Option Token) :
    pull ⟨⟨c, current⟩, false⟩ = match c.nextToken with
      | (.item t, c') => (some (.ok t), ⟨⟨c', some t⟩, false⟩)
      | (.ended, c') => (none, ⟨⟨c', current⟩, true⟩)
      | (.fault f, c') => (some (.error f), ⟨⟨c', current⟩, true⟩) := by
  rw [pull, Session.advance, if_neg Bool.false_ne_true]
  rcases c.nextToken with ⟨t | _ | f, c'⟩ <;> rfl

/-- A bound on the items that a stream can still give. -/
def size (s : TokenStream) : Nat :=
  if s.closed then 0 else s.cursor.size + 1

theorem size_pull_lt {s : TokenStream} {r : Except Fault Token} (h : s.pull.1 = some r) :
    s.pull.2.size < s.size := by
  obtain ⟨⟨c, current⟩, _ | _⟩ := s
  · rw [pull_eq] at h ⊢
    rcases hscan : c.nextToken with ⟨t | _ | f, c'⟩
    · have hlt := Cursor.size_nextToken_lt (congrArg Prod.fst hscan)
      rw [hscan] at hlt
      simpa [size, cursor] using hlt
    · simp [hscan] at h
    · simp [size]
  · contradiction

/-- Induction along the pulls that give items: what holds of a stream if it holds behind the item
that is pulled there holds of every stream. -/
@[elab_as_elim]
theorem pull_induction {motive : TokenStream → Prop}
    (step : ∀ s, (∀ r s', s.pull = (some r, s') → motive s') → motive s) (s : TokenStream) :
    motive s := by
  induction hn : s.size using Nat.strongRecOn generalizing s with
  | ind n ih =>
    refine step s fun r s' h => ?_
    have hlt := size_pull_lt (congrArg Prod.fst h)
    rw [h] at hlt
    exact ih _ (hn ▸ hlt) s' rfl

/-- Takes all items that are left. -/
def drain (s : TokenStream) : List (Except Fault Token) × TokenStream :=
  go #[] s
where
  /-- Goes on pulling behind the items in `taken`. -/
  go (taken : Array (Except Fault Token)) (s : TokenStream) :
      List (Except Fault Token) × TokenStream :=
    match h : s.pull with
    | (some r, s') =>
      have : s'.size < s.size := by simpa [h] using size_pull_lt (congrArg Prod.fst h)
      go (taken.push r) s'
    | (none, s') => (taken.toList, s')
  termination_by s.size

theorem drain.go_eq (taken : Array (Except Fault Token)) (s : TokenStream) :
    drain.go taken s = match s.pull with
      | (some r, s') => drain.go (taken.push r) s'
      | (none, s') => (taken.toList, s') := by
  rw [drain.go]
  split <;> simp_all

/-- Items taken earlier stand in front of those taken later. -/
theorem drain.go_append (taken : Array (Except Fault Token)) (s : TokenStream) :
    drain.go taken s = (taken.toList ++ (drain.go #[] s).1, (drain.go #[] s).2) := by
  -- along the pulls that the loop makes, for every array of items taken before
  induction s using pull_induction generalizing taken with
  | step s ih =>
    rw [drain.go_eq, drain.go_eq #[]]
    match h : s.pull with
    | (some r, s') =>
      simp only
      rw [ih r s' h (taken.push r), ih r s' h (#[].push r)]
      simp
    | (none, s') => simp

/-- All items are the first one and those behind it. -/
theorem drain_eq (s : TokenStream) :
    s.drain = match s.pull with
      | (some r, s') => (r :: s'.drain.1, s'.drain.2)
      | (none, s') => ([], s') := by
  unfold drain
  rw [drain.go_eq]
  split
  · rw [drain.go_append]
    simp
  · rfl

end TokenStream

end ArithLex
