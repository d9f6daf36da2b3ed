import PathGlob.Proofs.Segmentation.RunConcatenation
import PathGlob.Source

/-! What sources give, as lists of items. A source that is looked ahead gives the same items, and
one that is read in runs gives the longest runs of them, whatever has been seen so far.
-/

namespace PathGlob

namespace Source

variable {σ α : Type} [Source σ α]

/-- The state after a number of items have been asked for. -/
def after : Nat → σ → σ
  | 0, state => state
  | count + 1, state => after count (next state).2

/-- The state gives these items in order, and nothing after them, however often it is asked. -/
def Gives (state : σ) (items : List α) : Prop :=
  ∀ count, (next (after count state)).1 = items[count]?

/-- A relation between states and items that every answer agrees with and keeps is about what the
states give. Witness: induction on the number of items that have been asked for.
-/
theorem gives_of_step (Holds : σ → List α → Prop)
    (step : ∀ {state items}, Holds state items
      → ∃ later, next state = (items.head?, later) ∧ Holds later items.tail)
    {state : σ} {items : List α} (h : Holds state items)
    : Gives state items := by
  intro count
  induction count generalizing state items with
  | zero =>
      obtain ⟨later, hn, -⟩ := step h
      rw [after, hn, List.head?_eq_getElem?]
  | succ count ih =>
      obtain ⟨later, hn, hl⟩ := step h
      rw [after, hn, ih hl, List.getElem?_tail]

theorem Gives.step {state : σ} {items : List α} (h : Gives state items)
    : ∃ later, next state = (items.head?, later) ∧ Gives later items.tail := by
  refine ⟨(next state).2, Prod.ext ?_ rfl, ?_⟩
  · rw [List.head?_eq_getElem?]
    exact h 0
  · intro count
    rw [List.getElem?_tail]
    exact h (count + 1)

/-- Asking for all that is left gives all items and leaves nothing, by induction on the items. -/
theorem Gives.drain {state : σ} {items : List α} (h : Gives state items)
    : ∃ later, Source.drain state = (items, later) ∧ Gives later [] := by
  have drained (given : List α)
      : ∃ later, drainFrom given state = (given.reverse ++ items, later) ∧ Gives later [] := by
    induction items generalizing state given with
    | nil =>
        obtain ⟨later, hn, hl⟩ := h.step
        refine ⟨later, ?_, hl⟩
        unfold drainFrom
        split <;> simp_all
    | cons item items ih =>
        obtain ⟨middle, hn, hm⟩ := h.step
        obtain ⟨later, hd, hl⟩ := ih hm (item :: given)
        refine ⟨later, ?_, hl⟩
        unfold drainFrom
        split <;> simp_all
  exact drained []

end Source

open Source

section
variable {σ α : Type} [Source σ α]

-----------------------------------------------------------------------------------------
-- Looking ahead
-----------------------------------------------------------------------------------------

namespace Lookahead

/-- A source of which no answer has been seen gives what it has. -/
theorem gives_unseen {source : σ} {items : List α} (h : Gives source items)
    : Gives ({ source, seen := none } : Lookahead σ α) items := by
  refine gives_of_step (fun ahead items => ahead.seen = none ∧ Gives ahead.source items) ?_
    ⟨rfl, h⟩
  intro ahead items hold
  obtain ⟨seen, given⟩ := hold
  obtain ⟨later, hn, hl⟩ := given.step
  exact ⟨{ source := later, seen := none }, by simp [Source.next, next, seen, hn], rfl, hl⟩

/-- An answer that is kept is given again, in front of what comes after it. -/
theorem gives_seen {ahead later : Lookahead σ α} {items : List α}
    (h : ahead.next = (items.head?, later)) (hl : Gives later items.tail)
    : Gives { later with seen := some items.head? } items := by
  have bare : { later with seen := none } = later := by
    rw [← seen_of_next h]
  intro count
  cases count with
  | zero =>
      rw [← List.head?_eq_getElem?]
      rfl
  | succ count =>
      have shown := hl count
      rw [List.getElem?_tail] at shown
      rw [← shown, after]
      exact congrArg (fun state => (Source.next (after count state)).1) bare

theorem nextIf_of_accepts {accepts : α → Bool} {ahead : Lookahead σ α} {item : α} {items : List α}
    (h : Gives ahead (item :: items)) (ha : accepts item = true)
    : ∃ later, ahead.nextIf accepts = (some item, later) ∧ Gives later items := by
  obtain ⟨later, hn, hl⟩ := h.step
  refine ⟨later, ?_, hl⟩
  change ahead.next = (some item, later) at hn
  simp [nextIf, hn, ha]

/-- An item that is not accepted is left where it was, and so is the end. -/
theorem nextIf_of_not_accepts {accepts : α → Bool} {ahead : Lookahead σ α} {items : List α}
    (h : Gives ahead items) (ha : ∀ item ∈ items.head?, accepts item = false)
    : ∃ later, ahead.nextIf accepts = (none, later) ∧ Gives later items := by
  obtain ⟨later, hn, hl⟩ := h.step
  refine ⟨_, ?_, gives_seen hn hl⟩
  change ahead.next = (items.head?, later) at hn
  cases items with
  | nil => simp [nextIf, hn]
  | cons item items => simp [nextIf, hn, ha item rfl]

end Lookahead

-----------------------------------------------------------------------------------------
-- Runs
-----------------------------------------------------------------------------------------

namespace RunCursor

/-- Nothing goes on with a run in front of an item that begins another one. -/
theorem extend_of_not_adjacent {adjacent : α → α → Bool} {last : α} {input : Lookahead σ α}
    {items : List α} (h : Gives input items) (hn : ∀ item ∈ items.head?, adjacent last item = false)
    : ∃ later, extend adjacent last input = ([], later) ∧ Gives later items := by
  obtain ⟨later, hi, hl⟩ := Lookahead.nextIf_of_not_accepts h hn
  exact ⟨later, extend_of_none hi, hl⟩

theorem extend_of_adjacent {adjacent : α → α → Bool} {last item : α} {input : Lookahead σ α}
    {items : List α} (h : Gives input (item :: items)) (ha : adjacent last item = true)
    : ∃ middle,
        (∀ rest later,
          extend adjacent item middle = (rest, later)
          → extend adjacent last input = (item :: rest, later))
        ∧ Gives middle items := by
  obtain ⟨middle, hi, hm⟩ := Lookahead.nextIf_of_accepts h ha
  refine ⟨middle, ?_, hm⟩
  intro rest later he
  rw [extend_of_some hi, he]

/-- The run that an item begins is read up to where the next run begins, by induction on the items
that follow.
-/
theorem exists_extend_eq (adjacent : α → α → Bool) (first : α) {input : Lookahead σ α}
    {items : List α} (h : Gives input items)
    : ∃ rest left later,
        extend adjacent first input = (rest, later)
        ∧ runs adjacent (first :: items) = { first, rest } :: runs adjacent left
        ∧ Gives later left := by
  induction items generalizing first input with
  | nil =>
      obtain ⟨later, he, hl⟩ := extend_of_not_adjacent h (by simp)
      exact ⟨[], [], later, he, rfl, hl⟩
  | cons item items ih =>
      by_cases ha : adjacent first item = true
      · obtain ⟨middle, taken, hm⟩ := extend_of_adjacent h ha
        obtain ⟨rest, left, later, he, hr, hl⟩ := ih item hm
        refine ⟨item :: rest, left, later, taken rest later he, ?_, hl⟩
        change Run.cons adjacent first (runs adjacent (item :: items)) = _
        rw [hr, Run.cons, if_pos ha]
        rfl
      · have apart : ∀ next ∈ (item :: items).head?, adjacent first next = false := by
          simpa using ha
        obtain ⟨later, he, hl⟩ := extend_of_not_adjacent h apart
        exact ⟨[], item :: items, later, he, runs_cons_of_not_adjacent apart, hl⟩

/-- Reading in runs gives the longest runs of what the input gives. -/
theorem gives_runs {cursor : RunCursor σ α} {items : List α} (h : Gives cursor.input items)
    : Gives cursor (runs cursor.adjacent items) := by
  refine gives_of_step
    (fun cursor groups =>
      ∃ items, Gives cursor.input items ∧ groups = runs cursor.adjacent items)
    ?_ ⟨items, h, rfl⟩
  intro cursor groups hold
  obtain ⟨items, given, rfl⟩ := hold
  obtain ⟨middle, hn, hm⟩ := given.step
  change cursor.input.next = (items.head?, middle) at hn
  cases items with
  | nil =>
      refine ⟨{ cursor with input := middle }, ?_, [], hm, rfl⟩
      simp [Source.next, next, hn, runs]
  | cons first items =>
      obtain ⟨rest, left, later, he, hr, hl⟩ := exists_extend_eq cursor.adjacent first hm
      rw [List.tail_cons] at hr
      refine ⟨{ cursor with input := later }, ?_, left, hl, ?_⟩
      · simp [Source.next, next, hn, he, hr]
      · rw [hr, List.tail_cons]

end RunCursor

end

end PathGlob
