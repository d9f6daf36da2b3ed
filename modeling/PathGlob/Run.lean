/-! Adjacent items of a sequence grouped into runs. A run goes on for as long as a relation
holds between each item and the one after it, whatever holds further apart.
-/

namespace PathGlob

/-- A nonempty block of adjacent items. -/
structure Run (α : Type) where
  first : α
  rest : List α
deriving DecidableEq

namespace Run

variable {α : Type}

/-- The items of the run in order. -/
def items (run : Run α) : List α :=
  run.first :: run.rest

/-- The item that ends the run, which is the first one when the run has no other. -/
def last (run : Run α) : α :=
  run.rest.getLastD run.first

/-- The number of items in the run. -/
def count (run : Run α) : Nat :=
  run.rest.length + 1

/-- Puts an item in front of a sequence of runs: it joins the first run when it is adjacent
to the item that begins it, and is a run of its own otherwise.
-/
def cons (adjacent : α → α → Bool) (item : α) : List (Run α) → List (Run α)
  | [] => [{ first := item, rest := [] }]
  | run :: runs =>
      if adjacent item run.first then
        { first := item, rest := run.items } :: runs
      else
        { first := item, rest := [] } :: run :: runs

/-- An item put in front of runs comes before their items and changes none of them. -/
theorem flatMap_items_cons (adjacent : α → α → Bool) (item : α) (runs : List (Run α))
    : (cons adjacent item runs).flatMap items = item :: runs.flatMap items := by
  fun_cases cons adjacent item runs <;> simp [items]

end Run

/-- The longest runs of a sequence, in order. -/
def runs {α : Type} (adjacent : α → α → Bool) (items : List α) : List (Run α) :=
  items.foldr (Run.cons adjacent) []

/-- Runs join to the sequence that they were made from, by induction on the sequence. -/
@[simp]
theorem flatMap_items_runs {α : Type} (adjacent : α → α → Bool) (items : List α)
    : (runs adjacent items).flatMap Run.items = items := by
  induction items with
  | nil => rfl
  | cons item items ih => exact (Run.flatMap_items_cons ..).trans (congrArg _ ih)

end PathGlob
