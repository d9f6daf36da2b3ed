import PathGlob.Regex.Basic

/-! Search for a regular expression in a text, in one pass from the end of the text to its
start. At each offset every place in the pattern knows its preferred way to the end of the
pattern from there, which depends on the next offset alone.
-/

namespace PathGlob

namespace Regex

/-- The spans of a match and of the group within it, which ends where the match does. -/
structure Match where
  span : Span
  stem : Span
deriving DecidableEq

/-- Where a way through the rest of a pattern opens the group, and where it stops. -/
structure Outcome where
  stemStart : Nat
  stop : Nat
deriving DecidableEq

/-- The match that an outcome makes with the offset at which the pattern was begun. -/
def Outcome.toMatch (start : Nat) (outcome : Outcome) : Match where
  span := { start, stop := outcome.stop }
  stem := { start := outcome.stemStart, stop := outcome.stop }

/-- A place in a pattern: before a term, or before the group. -/
inductive Place where
  | term (term : Term)
  | stemStart
deriving DecidableEq

/-- The places of a regular expression in order. -/
def places (regex : Regex) : List Place :=
  regex.lead.map .term ++ .stemStart :: regex.stem.map .term

/-- A place with the preferred outcome from the offset last visited; `inside` is that of a
group of a loop that has been begun.
-/
structure Slot where
  place : Place
  outcome : Option Outcome
  inside : Option Outcome

/-- The outcome given that the next character is in the set. -/
def whenIn (set : CharSet) (next : Option Char) (outcome : Option Outcome) : Option Outcome :=
  if next.any set.contains then outcome else none

/-- Moves a slot to the offset before the one visited last. The outcomes of the place after
it are given for both offsets, `now` for the new one and `later` for the other.
-/
def Slot.retreat (offset : Nat) (next : Option Char) (now later : Option Outcome) (slot : Slot)
    : Slot :=
  match slot.place with
  | .stemStart =>
      { slot with outcome := now.map fun outcome => { outcome with stemStart := offset } }
  | .term (.one set) => { slot with outcome := whenIn set next later }
  | .term (.many set) => { slot with outcome := whenIn set next slot.outcome <|> now }
  | .term (.loop inner closing) =>
      let inside := whenIn inner next slot.inside <|> whenIn closing next slot.outcome
      { slot with outcome := inside <|> now, inside }

/-- The outcomes of the end of a pattern or of the slots before it, and those slots. -/
structure Column where
  now : Option Outcome
  later : Option Outcome
  slots : List Slot

/-- Moves a slot in front of a column that has been moved already. -/
def Column.push (offset : Nat) (next : Option Char) (slot : Slot) (column : Column) : Column :=
  let moved := slot.retreat offset next column.now column.later
  { now := moved.outcome, later := slot.outcome, slots := moved :: column.slots }

/-- What is known once the text from an offset on has been visited. -/
structure Progress where
  offset : Nat
  ending : Option Outcome
  slots : List Slot
  found : Option Match

/-- Visits the offset before the given character, or the end of the text. A match that
begins here is preferred to those that begin later.
-/
def visit (regex : Regex) (next : Option Char) (progress : Progress) : Progress :=
  let offset := progress.offset - next.elim 0 Char.utf8Size
  let ending :=
    if regex.anchored && next.isSome then none else some { stemStart := offset, stop := offset }
  let column : Column := { now := ending, later := progress.ending, slots := [] }
  let column := progress.slots.foldr (Column.push offset next) column
  -- Offsets are visited from the end, so what is found here begins before all found so far.
  let found :=
    if regex.anchored && offset != 0 then none else column.now.map (Outcome.toMatch offset)
  { offset, ending, slots := column.slots, found := found <|> progress.found }

/-- Nothing is known before the end of the text has been visited. -/
def unvisited (regex : Regex) (text : Text) : Progress where
  offset := Text.byteLength text
  ending := none
  slots := regex.places.map fun place => { place, outcome := none, inside := none }
  found := none

/-- The leftmost match in the text; of those that begin there, the preferred one. -/
def find? (regex : Regex) (text : Text) : Option Match :=
  (text.foldr (fun c => regex.visit (some c)) (regex.visit none (regex.unvisited text))).found

end Regex

end PathGlob
