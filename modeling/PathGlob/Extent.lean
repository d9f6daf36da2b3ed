import PathGlob.Source

/-! Runs of which the items are not kept. A source is read in runs by their extents: the items at both
ends and how many there are.
-/

namespace PathGlob

/-- What is kept of a block of items: the first one, the last one, and their number. -/
structure Extent (α : Type) where
  first : α
  last : α
  count : Nat
deriving DecidableEq

namespace Extent

variable {α : Type}

/-- The extent of a single item. -/
def single (item : α) : Extent α where
  first := item
  last := item
  count := 1

/-- The extent with one more item at its end. -/
def push (extent : Extent α) (item : α) : Extent α :=
  { extent with last := item, count := extent.count + 1 }

/-- Items that are put at the end of an extent leave its first item, and add to its count. -/
theorem foldl_push (extent : Extent α) (items : List α)
    : items.foldl push extent
      = {
          first := extent.first
          last := items.getLastD extent.last
          count := items.length + extent.count
        } := by
  induction items generalizing extent with
  | nil => rw [List.foldl_nil, List.getLastD_nil, List.length_nil, Nat.zero_add]
  | cons item items ih =>
      rw [List.foldl_cons, ih, List.getLastD_cons, List.length_cons, Nat.add_right_comm]
      rfl

end Extent

/-- The extent of a run. -/
def Run.extent {α : Type} (run : Run α) : Extent α where
  first := run.first
  last := run.last
  count := run.count

/-- Reads the items of a source in runs, and keeps the extent of each. -/
structure ExtentCursor (σ α : Type) extends RunCursor σ α

namespace ExtentCursor

variable {σ α : Type} [Source σ α]

/-- Extends a run by the items that go on with it, each of them after the one taken before it. -/
def extend (adjacent : α → α → Bool) (extent : Extent α) (input : Lookahead σ α)
    : Extent α × Lookahead σ α :=
  match _ : input.nextIf (adjacent extent.last) with
  | (some item, later) => extend adjacent (extent.push item) later
  | (none, later) => (extent, later)
termination_by input.bound
decreasing_by exact Lookahead.bound_of_nextIf ‹_›

/-- Reads the extent of the next run. -/
def next (cursor : ExtentCursor σ α) : Option (Extent α) × ExtentCursor σ α :=
  match cursor.input.next with
  | (some first, input) =>
      let (extent, input) := extend cursor.adjacent (.single first) input
      (some extent, { cursor with input })
  | (none, input) => (none, { cursor with input })

/-- The items that are taken are those of the run, by induction on the taking. -/
theorem extend_eq (adjacent : α → α → Bool) (extent : Extent α) (input : Lookahead σ α)
    : extend adjacent extent input
      = (
          (RunCursor.extend adjacent extent.last input).1.foldl Extent.push extent,
          (RunCursor.extend adjacent extent.last input).2
        ) := by
  fun_induction extend adjacent extent input with
  | case1 extent input item later h ih =>
      rw [ih, RunCursor.extend_of_some h]
      rfl
  | case2 extent input later h =>
      rw [RunCursor.extend_of_none h]
      rfl

/-- What is read is the extent of the run that is read otherwise, and as much of the input is left. -/
theorem next_eq (cursor : ExtentCursor σ α)
    : cursor.next
      = (cursor.toRunCursor.next.1.map Run.extent, ⟨cursor.toRunCursor.next.2⟩) := by
  unfold next RunCursor.next
  cases h : cursor.input.next with
  | mk answer input =>
      cases answer with
      | none => rfl
      | some first =>
          simp only [extend_eq, Extent.foldl_push]
          rfl

instance : Source (ExtentCursor σ α) (Extent α) where
  next := next
  bound cursor := cursor.input.bound
  bound_lt := by
    intro cursor later extent h
    rw [next_eq] at h
    obtain ⟨given, rfl⟩ := Prod.mk.inj h
    obtain ⟨run, hr, -⟩ := Option.map_eq_some_iff.mp given
    exact RunCursor.bound_lt_of_next (Prod.ext hr rfl)

end ExtentCursor

end PathGlob
