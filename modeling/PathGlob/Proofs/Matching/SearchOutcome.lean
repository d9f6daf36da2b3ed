import PathGlob.Regex.Search

/-! The one-pass search computes an outcome for every place before every rest of the text.
The outcome of a place depends on the outcomes of the places after it, whatever they are.
-/

namespace PathGlob.Regex

section
variable (length : Nat)

/-- The slot of a place before a rest of a text of the given length, for the outcomes of the
places after it.
-/
def Place.slotBefore (place : Place) (after : Text → Option Outcome) : Text → Slot
  | [] => Slot.retreat length none (after []) none { place, outcome := none, inside := none }
  | c :: rest =>
      Slot.retreat (length - Text.byteLength (c :: rest)) (some c) (after (c :: rest))
        (after rest) (slotBefore place after rest)

/-- The preferred outcome of places before a rest of the text. -/
def outcomeOf (anchored : Bool) : List Place → Text → Option Outcome
  | [], rest =>
      if anchored && !rest.isEmpty then
        none
      else
        some
          {
            stemStart := length - Text.byteLength rest
            stop := length - Text.byteLength rest
          }
  | place :: places, rest => (place.slotBefore length (outcomeOf anchored places) rest).outcome

/-- The slots of places before a rest of the text. -/
def slotsOf (anchored : Bool) : List Place → Text → List Slot
  | [], _ => []
  | place :: places, rest =>
      place.slotBefore length (outcomeOf length anchored places) rest
        :: slotsOf anchored places rest

/-- The match that begins before a rest of the text, if there is one. -/
def matchAt (anchored : Bool) (places : List Place) (rest : Text) : Option Match :=
  let offset := length - Text.byteLength rest
  if anchored && offset != 0 then
    none
  else
    (outcomeOf length anchored places rest).map (Outcome.toMatch offset)

/-- The match that begins before the longest rest that has one. -/
def firstMatch (anchored : Bool) (places : List Place) : Text → Option Match
  | [] => matchAt length anchored places []
  | c :: rest => matchAt length anchored places (c :: rest) <|> firstMatch anchored places rest

end

section
variable {length : Nat}

/-- A slot keeps its place, since no retreat changes it. -/
@[simp]
theorem slotBefore_place (place : Place) (after : Text → Option Outcome) (rest : Text)
    : (place.slotBefore length after rest).place = place := by
  have kept (offset : Nat) (next : Option Char) (now later : Option Outcome) (slot : Slot)
      : (slot.retreat offset next now later).place = slot.place := by
    unfold Slot.retreat
    split <;> rfl
  induction rest with
  | nil => exact kept ..
  | cons c rest ih => exact (kept ..).trans ih

/-- Pushing the slots of a rest moves them one character back, by induction on the places. -/
theorem foldr_push_slotsOf (anchored : Bool) (places : List Place) (c : Char) (rest : Text)
    : (slotsOf length anchored places rest).foldr
          (Column.push (length - Text.byteLength (c :: rest)) (some c))
          {
            now := outcomeOf length anchored [] (c :: rest)
            later := outcomeOf length anchored [] rest
            slots := []
          }
        = {
            now := outcomeOf length anchored places (c :: rest)
            later := outcomeOf length anchored places rest
            slots := slotsOf length anchored places (c :: rest)
          } := by
  induction places with
  | nil => rfl
  | cons place places ih =>
      rw [slotsOf, List.foldr_cons, ih]
      rfl

/-- The same at the end of the text, where nothing has been known before. -/
theorem foldr_push_unvisited (anchored : Bool) (places : List Place)
    : (places.map fun place => ({ place, outcome := none, inside := none } : Slot)).foldr
          (Column.push length none)
          { now := outcomeOf length anchored [] [], later := none, slots := [] }
        = {
            now := outcomeOf length anchored places []
            later := none
            slots := slotsOf length anchored places []
          } := by
  induction places with
  | nil => rfl
  | cons place places ih =>
      rw [List.map_cons, List.foldr_cons, ih]
      rfl

end

/-- What the search knows before a rest of a text of the given length. -/
def progressAt (regex : Regex) (length : Nat) (rest : Text) : Progress where
  offset := length - Text.byteLength rest
  ending := outcomeOf length regex.anchored [] rest
  slots := slotsOf length regex.anchored regex.places rest
  found := firstMatch length regex.anchored regex.places rest

/-- Visiting one more character keeps what is known in step with the rest of the text. -/
theorem visit_progressAt (regex : Regex) (length : Nat) (c : Char) (rest : Text)
    : regex.visit (some c) (regex.progressAt length rest)
      = regex.progressAt length (c :: rest) := by
  have ho : length - Text.byteLength rest - c.utf8Size
      = length - Text.byteLength (c :: rest) := by
    rw [Text.byteLength_cons]
    omega
  have hc := @foldr_push_slotsOf length regex.anchored regex.places c rest
  have he : outcomeOf length regex.anchored [] (c :: rest)
      = if regex.anchored then none else some {
          stemStart := length - Text.byteLength (c :: rest)
          stop := length - Text.byteLength (c :: rest)
        } := by
    simp [outcomeOf]
  rw [he] at hc
  simp only [visit, progressAt, Option.elim_some, ho, Option.isSome_some, Bool.and_true, hc, he,
    firstMatch, matchAt]

theorem visit_unvisited (regex : Regex) (text : Text)
    : regex.visit none (regex.unvisited text)
      = regex.progressAt (Text.byteLength text) [] := by
  have hc := @foldr_push_unvisited (Text.byteLength text) regex.anchored regex.places
  have he : outcomeOf (Text.byteLength text) regex.anchored [] []
      = some { stemStart := Text.byteLength text, stop := Text.byteLength text } := by
    simp [outcomeOf]
  rw [he] at hc
  simp [visit, unvisited, progressAt, he, hc, firstMatch, matchAt]

/-- The search finds the first match, since every visit keeps it in step with the text. -/
theorem find?_eq_firstMatch (regex : Regex) (text : Text)
    : regex.find? text = firstMatch (Text.byteLength text) regex.anchored regex.places text := by
  have run (rest : Text)
      : rest.foldr (fun c => regex.visit (some c)) (regex.visit none (regex.unvisited text))
        = regex.progressAt (Text.byteLength text) rest := by
    induction rest with
    | nil => exact visit_unvisited regex text
    | cons c rest ih => rw [List.foldr_cons, ih, visit_progressAt]
  rw [find?, run]
  rfl

end PathGlob.Regex
