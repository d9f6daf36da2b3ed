import PathGlob.Proofs.Matching.OrderedSplits
import PathGlob.Proofs.Matching.SearchOutcome

/-! The outcome of items is that of the first way to consume them that can go on to the end of
the pattern. The search tries the ways of every item with greater counts first.
-/

namespace PathGlob

namespace Item

@[simp]
theorem contains_separatorSet (c : Char) : separatorSet.contains c = isSeparator c := by
  rw [Bool.eq_iff_iff]
  simp [separatorSet, CharSet.contains, isSeparator]

@[simp]
theorem contains_wildcardSet (isDotless : Bool) (c : Char)
    : (wildcardSet isDotless).contains c = admits isDotless c := by
  rw [Bool.eq_iff_iff]
  cases isDotless <;>
    simp [wildcardSet, CharSet.contains, admits, isSeparator, and_assoc]

end Item

namespace Regex

section
variable {length : Nat} {anchored : Bool} {places : List Place}

/-- The outcome of the places after a way that has been taken. -/
def outcomeAfter {κ : Type} (length : Nat) (anchored : Bool) (places : List Place)
    (taken : κ × Text)
    : Option Outcome :=
  outcomeOf length anchored places taken.2

theorem outcomeOf_one (set : CharSet) (text : Text)
    : outcomeOf length anchored (.term (.one set) :: places) text
      = (Item.takeOne set.contains text).findSome? (outcomeAfter length anchored places) := by
  cases text with
  | nil => rfl
  | cons c rest =>
      by_cases hc : set.contains c = true <;>
        simp [outcomeOf, Place.slotBefore, Slot.retreat, whenIn, Item.takeOne, outcomeAfter, hc]

theorem findSome?_oneMore (ways : List (Nat × Text))
    : (ways.map Item.oneMore).findSome? (outcomeAfter length anchored places)
      = ways.findSome? (outcomeAfter length anchored places) := by
  rw [List.findSome?_map]
  rfl

/-- More repetitions are tried before stopping here, by induction on the text. -/
theorem outcomeOf_many (set : CharSet) (text : Text)
    : outcomeOf length anchored (.term (.many set) :: places) text
      = (Item.takeMany set.contains text).findSome? (outcomeAfter length anchored places) := by
  induction text with
  | nil => simp [outcomeOf, Place.slotBefore, Slot.retreat, whenIn, Item.takeMany, outcomeAfter]
  | cons c rest ih =>
      rw [outcomeOf] at ih ⊢
      by_cases hc : set.contains c = true
      · simp only [Place.slotBefore, Slot.retreat, slotBefore_place, whenIn, Option.any_some, hc,
          if_true, ih, Item.takeMany, List.findSome?_append, findSome?_oneMore]
        simp [outcomeAfter]
      · simp [Place.slotBefore, Slot.retreat, whenIn, Item.takeMany, outcomeAfter, hc]

/-- A component that has been begun is closed by the next separator, since no separator can
belong to its name; the induction is on the text and carries what has been begun.
-/
theorem slotBefore_globstar (text : Text)
    : (Place.slotBefore length (.term Item.globstar.term) (outcomeOf length anchored places)
          text).inside
        = (Item.takeComponents text).findSome? (outcomeAfter length anchored places)
      ∧ outcomeOf length anchored (.term Item.globstar.term :: places) text
        = (Item.takeComponents text ++ [(0, text)]).findSome?
            (outcomeAfter length anchored places) := by
  induction text with
  | nil =>
      simp [outcomeOf, Item.term, Place.slotBefore, Slot.retreat, whenIn, Item.takeComponents,
        outcomeAfter]
  | cons c rest ih =>
      obtain ⟨hi, ho⟩ := ih
      rw [outcomeOf] at ho
      have inside
          : (Place.slotBefore length (.term Item.globstar.term) (outcomeOf length anchored places)
              (c :: rest)).inside
            = (Item.takeComponents (c :: rest)).findSome?
                (outcomeAfter length anchored places) := by
        simp only [Item.term] at hi ho
        by_cases hc : isSeparator c = true
        · simp [Place.slotBefore, Slot.retreat, Item.term, whenIn, Item.takeComponents, hc, ho,
            Item.admits, findSome?_oneMore, outcomeAfter]
        · simp [Place.slotBefore, Slot.retreat, Item.term, whenIn, Item.takeComponents, hc, hi,
            Item.admits]
      refine ⟨inside, ?_⟩
      rw [List.findSome?_append, ← inside]
      simp [outcomeOf, Place.slotBefore, Slot.retreat, Item.term, outcomeAfter]

/-- The outcome of an item goes on after the first of its ways that can, by the cases of the
item.
-/
theorem outcomeOf_item (item : Item) (text : Text)
    : outcomeOf length anchored (.term item.term :: places) text
      = (item.takes text).findSome? (outcomeAfter length anchored places) := by
  have counted (ways : List (Nat × Text))
      : (ways.map Item.counted).findSome? (outcomeAfter length anchored places)
        = ways.findSome? (outcomeAfter length anchored places) := by
    rw [List.findSome?_map]
    rfl
  cases item with
  | literal c => exact outcomeOf_one (.only c) text
  | separator =>
      have he : Item.separatorSet.contains = isSeparator := by ext; simp
      rw [Item.takes, ← he]
      exact outcomeOf_one ..
  | one isDotless =>
      have he : (Item.wildcardSet isDotless).contains = Item.admits isDotless := by ext; simp
      rw [Item.takes, ← he]
      exact outcomeOf_one ..
  | many isDotless =>
      have he : (Item.wildcardSet isDotless).contains = Item.admits isDotless := by ext; simp
      rw [Item.takes, counted, ← he]
      exact outcomeOf_many ..
  | globstar =>
      rw [Item.takes, counted]
      exact (slotBefore_globstar text).2

/-- What is found first in joined lists is found first in the first list that has any. -/
theorem findSome?_flatMap {α β γ : Type} (f : α → List β) (g : β → Option γ) (items : List α)
    : (items.flatMap f).findSome? g = items.findSome? fun item => (f item).findSome? g := by
  induction items with
  | nil => rfl
  | cons item items ih =>
      rw [List.flatMap_cons, List.findSome?_append, ih, List.findSome?_cons]
      cases (f item).findSome? g <;> rfl

/-- The outcome of items goes on after the first of their ways that can, by induction on the
items.
-/
theorem outcomeOf_items (items : List Item) (text : Text)
    : outcomeOf length anchored (items.map (fun item => .term item.term) ++ places) text
      = (splits items text).findSome? (outcomeAfter length anchored places) := by
  induction items generalizing text with
  | nil => simp [splits, outcomeAfter]
  | cons item items ih =>
      rw [List.map_cons, List.cons_append, outcomeOf_item, splits, findSome?_flatMap]
      congr
      funext taken
      rw [List.findSome?_map]
      exact ih taken.2

end

end Regex

end PathGlob
