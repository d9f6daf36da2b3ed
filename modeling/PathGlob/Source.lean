import PathGlob.Run

/-! Sources that give one item after another, as they are asked. A source can be looked ahead by
one item, and its items can be grouped into runs by looking no further ahead than that.
-/

namespace PathGlob

/-- A state that gives finitely many items, one at a time. -/
class Source (σ : Type) (α : outParam Type) where
  /-- The next item, unless there is none, and the state after it has been asked for. -/
  next : σ → Option α × σ
  /-- An upper bound on the number of items that are left. -/
  bound : σ → Nat
  bound_lt
    : ∀ {state later : σ} {item : α}, next state = (some item, later) → bound later < bound state

namespace Source

variable {σ α : Type} [Source σ α]

/-- Asks for every item that is left, with the items given before in reverse. -/
def drainFrom (given : List α) (state : σ) : List α × σ :=
  match _ : next state with
  | (some item, later) => drainFrom (item :: given) later
  | (none, later) => (given.reverse, later)
termination_by bound state
decreasing_by exact bound_lt ‹_›

/-- Asks for every item that is left. -/
def drain (state : σ) : List α × σ :=
  drainFrom [] state

end Source

/-- A list gives its items from the first one on. -/
instance {α : Type} : Source (List α) α where
  next items := (items.head?, items.tail)
  bound := List.length
  bound_lt := by
    intro items later item h
    obtain ⟨hh, rfl⟩ := Prod.mk.inj h
    obtain ⟨rest, rfl⟩ := List.head?_eq_some_iff.mp hh
    exact Nat.lt_succ_self _

-----------------------------------------------------------------------------------------
-- Looking ahead
-----------------------------------------------------------------------------------------

/-- A source whose next answer may have been seen already. The answer is kept until it is asked for,
also if it is that there is no item.
-/
structure Lookahead (σ α : Type) where
  source : σ
  seen : Option (Option α)

namespace Lookahead

variable {σ α : Type} [Source σ α]

/-- Gives the answer that has been seen, or else asks the source. -/
def next (ahead : Lookahead σ α) : Option α × Lookahead σ α :=
  match ahead.seen with
  | some answer => (answer, { ahead with seen := none })
  | none =>
      let (answer, source) := Source.next ahead.source
      (answer, { source, seen := none })

/-- Takes the next item if it is accepted, and otherwise keeps the answer for later. -/
def nextIf (accepts : α → Bool) (ahead : Lookahead σ α) : Option α × Lookahead σ α :=
  match ahead.next with
  | (some item, later) =>
      if accepts item then
        (some item, later)
      else
        (none, { later with seen := some (some item) })
  | (none, later) => (none, { later with seen := some none })

/-- An upper bound on the number of items that are left. -/
def bound (ahead : Lookahead σ α) : Nat :=
  match ahead.seen with
  | none => Source.bound ahead.source
  | some none => 0
  | some (some _) => Source.bound ahead.source + 1

/-- No answer has been seen right after one has been given. -/
theorem seen_of_next {ahead later : Lookahead σ α} {answer : Option α}
    (h : ahead.next = (answer, later))
    : later.seen = none := by
  unfold next at h
  split at h <;> cases h <;> rfl

theorem bound_lt_of_next {ahead later : Lookahead σ α} {item : α}
    (h : ahead.next = (some item, later))
    : later.bound < ahead.bound := by
  obtain ⟨source, seen⟩ := ahead
  cases seen with
  | none =>
      obtain ⟨given, rfl⟩ := Prod.mk.inj h
      exact Source.bound_lt (Prod.ext given rfl)
  | some answer =>
      cases h
      exact Nat.lt_succ_self _

instance : Source (Lookahead σ α) α where
  next := next
  bound := bound
  bound_lt := bound_lt_of_next

/-- An item that is kept for later counts as before, and one that is taken no longer counts. -/
theorem bound_of_nextIf {accepts : α → Bool} {ahead later : Lookahead σ α} {answer : Option α}
    (h : ahead.nextIf accepts = (answer, later))
    : later.bound + answer.toList.length ≤ ahead.bound := by
  unfold nextIf at h
  split at h
  next item rest he =>
    have fewer := bound_lt_of_next he
    have seen := seen_of_next he
    split at h <;> cases h
    · exact fewer
    · simp only [bound, seen] at fewer ⊢
      exact fewer
  next =>
    cases h
    exact Nat.zero_le _

end Lookahead

-----------------------------------------------------------------------------------------
-- Runs
-----------------------------------------------------------------------------------------

/-- Reads the items of a source in runs. -/
structure RunCursor (σ α : Type) where
  adjacent : α → α → Bool
  input : Lookahead σ α

namespace RunCursor

variable {σ α : Type} [Source σ α]

/-- Takes the items that go on with a run after the last one taken. -/
def extend (adjacent : α → α → Bool) (last : α) (input : Lookahead σ α)
    : List α × Lookahead σ α :=
  match _ : input.nextIf (adjacent last) with
  | (some item, later) =>
      let (rest, later) := extend adjacent item later
      (item :: rest, later)
  | (none, later) => ([], later)
termination_by input.bound
decreasing_by exact Lookahead.bound_of_nextIf ‹_›

theorem extend_of_some {adjacent : α → α → Bool} {last item : α} {input later : Lookahead σ α}
    (h : input.nextIf (adjacent last) = (some item, later))
    : extend adjacent last input
      = (item :: (extend adjacent item later).1, (extend adjacent item later).2) := by
  conv => lhs; unfold extend
  split <;> simp_all

theorem extend_of_none {adjacent : α → α → Bool} {last : α} {input later : Lookahead σ α}
    (h : input.nextIf (adjacent last) = (none, later))
    : extend adjacent last input = ([], later) := by
  unfold extend
  split <;> simp_all

/-- Reads the next run. The item after it has been seen then, and is kept for the run it begins. -/
def next (cursor : RunCursor σ α) : Option (Run α) × RunCursor σ α :=
  match cursor.input.next with
  | (some first, input) =>
      let (rest, input) := extend cursor.adjacent first input
      (some { first, rest }, { cursor with input })
  | (none, input) => (none, { cursor with input })

/-- Going on with a run leaves no more items than before, by induction on the taking. -/
theorem bound_extend_le (adjacent : α → α → Bool) (last : α) (input : Lookahead σ α)
    : (extend adjacent last input).2.bound ≤ input.bound := by
  fun_induction extend adjacent last input with
  | case1 last input item later h rest left he ih =>
      have fewer := Lookahead.bound_of_nextIf h
      rw [he] at ih
      exact Nat.le_trans ih (Nat.le_of_add_right_le fewer)
  | case2 last input later h => exact Lookahead.bound_of_nextIf h

theorem bound_lt_of_next {cursor later : RunCursor σ α} {run : Run α}
    (h : cursor.next = (some run, later))
    : later.input.bound < cursor.input.bound := by
  unfold next at h
  split at h <;> cases h
  next first input he =>
    exact Nat.lt_of_le_of_lt (bound_extend_le ..) (Lookahead.bound_lt_of_next he)

instance : Source (RunCursor σ α) (Run α) where
  next := next
  bound cursor := cursor.input.bound
  bound_lt := bound_lt_of_next

end RunCursor

end PathGlob
