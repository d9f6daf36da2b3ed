import PathGlob.Run

/-! Runs of a sequence that is put together from parts. A run never goes on where two neighbours
are not adjacent, so the sequence can be cut there.
-/

namespace PathGlob

/-- A run ends with its last item. -/
theorem Run.getLast?_items {α : Type} (run : Run α) : run.items.getLast? = some run.last := by
  rw [items, last, List.getLast?_cons, List.getLastD_eq_getLast?]

section
variable {α β : Type} {adjacent : α → α → Bool}

/-- The first run of a sequence begins with the first item. -/
theorem exists_runs_cons (adjacent : α → α → Bool) (item : α) (items : List α)
    : ∃ rest later, runs adjacent (item :: items) = { first := item, rest } :: later := by
  change ∃ rest later, Run.cons adjacent item (runs adjacent items) = _
  fun_cases Run.cons adjacent item (runs adjacent items) with
  | case1 => exact ⟨[], [], rfl⟩
  | case2 run later => exact ⟨run.items, later, rfl⟩
  | case3 run later => exact ⟨[], run :: later, rfl⟩

theorem runs_cons_of_not_adjacent {item : α} {items : List α}
    (h : ∀ next ∈ items.head?, adjacent item next = false)
    : runs adjacent (item :: items) = { first := item, rest := [] } :: runs adjacent items := by
  change Run.cons adjacent item (runs adjacent items) = _
  cases items with
  | nil => rfl
  | cons next items =>
      obtain ⟨rest, later, hr⟩ := exists_runs_cons adjacent next items
      rw [hr, Run.cons, h next rfl]
      rfl

/-- Runs of two sequences stay apart if the items at the cut are not adjacent, by induction on
the first sequence.
-/
theorem runs_append {left right : List α}
    (h : ∀ last ∈ left.getLast?, ∀ first ∈ right.head?, adjacent last first = false)
    : runs adjacent (left ++ right) = runs adjacent left ++ runs adjacent right := by
  induction left with
  | nil => rfl
  | cons item left ih =>
      cases left with
      | nil => exact runs_cons_of_not_adjacent (h item rfl)
      | cons next left =>
          have ht := ih (by simpa using h)
          obtain ⟨rest, later, hr⟩ := exists_runs_cons adjacent next left
          change Run.cons adjacent item (runs adjacent (next :: left ++ right))
            = Run.cons adjacent item (runs adjacent (next :: left)) ++ _
          rw [ht, hr, List.cons_append, Run.cons, Run.cons]
          split <;> rfl

/-- A sequence of neighbours that are all adjacent is one run, by induction on it. -/
theorem runs_of_adjacent {item : α} {items : List α}
    (h : ∀ left ∈ item :: items, ∀ right ∈ items, adjacent left right = true)
    : runs adjacent (item :: items) = [{ first := item, rest := items }] := by
  induction items generalizing item with
  | nil => rfl
  | cons next items ih =>
      change Run.cons adjacent item (runs adjacent (next :: items)) = _
      rw [ih fun left hl right hr =>
          h left (List.mem_cons_of_mem _ hl) right (List.mem_cons_of_mem _ hr)]
      simp [Run.cons, Run.items, h item (by simp) next (by simp)]

/-- Renaming the items of a sequence renames those of its runs, if it keeps adjacency. -/
theorem runs_map {other : β → β → Bool} (f : α → β)
    (h : ∀ left right, other (f left) (f right) = adjacent left right) (items : List α)
    : runs other (items.map f)
      = (runs adjacent items).map fun run =>
          { first := f run.first, rest := run.rest.map f } := by
  induction items with
  | nil => rfl
  | cons item items ih =>
      change Run.cons other (f item) (runs other (items.map f))
        = (Run.cons adjacent item (runs adjacent items)).map _
      rw [ih]
      fun_cases Run.cons adjacent item (runs adjacent items) <;>
        simp_all [Run.cons, Run.items]

end

end PathGlob
