import PathGlob.Proofs.Cursors.CursorItems

/-! Cursors as places in the list of all parts. Whatever steps are taken on whichever cursors, the
answers are those of places that are counted in the list, and no step moves another cursor.
-/

namespace PathGlob

open Source

-----------------------------------------------------------------------------------------
-- Steps on places in a list of parts
-----------------------------------------------------------------------------------------

namespace CursorStep

/-- The number of the cursor that the step is on. -/
def index : CursorStep → Nat
  | next index | clone index | rest index => index

/-- Takes one step on places that are counted in a list of parts. -/
def takeAt? (parts : List Part) (places : List Nat) : CursorStep → Option (CursorAnswer × List Nat)
  | next index => places[index]?.map fun place =>
      match parts[place]? with
      | some part => (.part (some part), places.set index (place + 1))
      | none => (.part none, places)
  | clone index => places[index]?.map fun place =>
      (.cursor places.length, places ++ [place])
  | rest index => places[index]?.map fun place =>
      (.raws ((parts.drop place).map Part.raw), places.set index parts.length)

/-- The answers to a sequence of steps on places that are counted in a list of parts. -/
def answersAt? (parts : List Part) (places : List Nat)
    : List CursorStep → Option (List CursorAnswer)
  | [] => some []
  | step :: steps => do
      let (answer, places) ← step.takeAt? parts places
      let answers ← answersAt? parts places steps
      return answer :: answers

end CursorStep

-----------------------------------------------------------------------------------------
-- Cursors that stand at places
-----------------------------------------------------------------------------------------

/-- As many cursors as places, each of which gives the parts from its place on. -/
structure StandAt (parts : List Part) (cursors : List Cursor) (places : List Nat) : Prop where
  length_eq : cursors.length = places.length
  gives
    : ∀ {index : Nat} {cursor place},
        cursors[index]? = some cursor
        → places[index]? = some place
        → Gives cursor (parts.drop place)

namespace StandAt

variable {parts : List Part} {cursors : List Cursor} {places : List Nat}

/-- There is a cursor of some number exactly if there is a place. -/
theorem none_or_some (h : StandAt parts cursors places) (index : Nat)
    : cursors[index]? = none ∧ places[index]? = none
      ∨ ∃ cursor place,
          cursors[index]? = some cursor
          ∧ places[index]? = some place
          ∧ Gives cursor (parts.drop place) := by
  by_cases hi : index < cursors.length
  · have known : cursors[index]? = some cursors[index] := List.getElem?_eq_getElem hi
    have placed := List.getElem?_eq_getElem (h.length_eq ▸ hi)
    exact Or.inr ⟨_, _, known, placed, h.gives known placed⟩
  · have unknown : cursors.length ≤ index := Nat.le_of_not_lt hi
    refine Or.inl ⟨List.getElem?_eq_none unknown, List.getElem?_eq_none ?_⟩
    rwa [← h.length_eq]

/-- A cursor that is moved together with its place leaves the others where they stand. -/
theorem set (h : StandAt parts cursors places) (index : Nat) {cursor : Cursor} {place : Nat}
    (hg : Gives cursor (parts.drop place))
    : StandAt parts (cursors.set index cursor) (places.set index place) := by
  refine ⟨by simp [h.length_eq], ?_⟩
  intro other found spot hf hs
  rw [List.getElem?_set] at hf hs
  split at hf
  next same =>
    rw [if_pos same] at hs
    split at hf <;> cases hf
    split at hs <;> cases hs
    exact hg
  next apart =>
    rw [if_neg apart] at hs
    exact h.gives hf hs

/-- A cursor that is made where another one stands comes with a place of its own. -/
theorem concat (h : StandAt parts cursors places) {cursor : Cursor} {place : Nat}
    (hg : Gives cursor (parts.drop place))
    : StandAt parts (cursors ++ [cursor]) (places ++ [place]) := by
  refine ⟨by simp [h.length_eq], ?_⟩
  intro other found spot hf hs
  rw [List.getElem?_append] at hf hs
  rw [h.length_eq] at hf
  split at hf
  next old =>
    rw [if_pos old] at hs
    exact h.gives hf hs
  next new =>
    rw [if_neg new] at hs
    obtain ⟨-, rfl⟩ := List.getElem?_eq_some_iff.mp hf
    obtain ⟨-, rfl⟩ := List.getElem?_eq_some_iff.mp hs
    simpa using hg

/-- A cursor at the end may move on while its place stays, since nothing is left for either. -/
theorem set_at_end (h : StandAt parts cursors places) {index place : Nat} {cursor : Cursor}
    (hp : places[index]? = some place) (hn : parts[place]? = none) (hg : Gives cursor [])
    : StandAt parts (cursors.set index cursor) places := by
  have nothing : parts.drop place = [] := List.drop_of_length_le (List.getElem?_eq_none_iff.mp hn)
  have same : places.set index place = places := by
    obtain ⟨hi, rfl⟩ := List.getElem?_eq_some_iff.mp hp
    exact List.set_getElem_self hi
  rw [← same]
  exact h.set index (nothing ▸ hg)

/-- A step answers the same on cursors and on their places, and keeps the cursors where the places
are.
-/
theorem step (h : StandAt parts cursors places) (step : CursorStep)
    : step.take? cursors = none ∧ step.takeAt? parts places = none
      ∨ ∃ answer moved later,
          step.take? cursors = some (answer, moved)
          ∧ step.takeAt? parts places = some (answer, later)
          ∧ StandAt parts moved later := by
  rcases h.none_or_some step.index with ⟨hc, hp⟩ | ⟨cursor, place, hc, hp, given⟩
  · refine Or.inl ?_
    cases step <;> simp_all [CursorStep.take?, CursorStep.takeAt?, CursorStep.index]
  · refine Or.inr ?_
    cases step with
    | next index =>
        change cursors[index]? = _ at hc
        change places[index]? = _ at hp
        obtain ⟨later, hn, hl⟩ := given.step
        change cursor.next = _ at hn
        rw [List.head?_drop] at hn
        rw [List.tail_drop] at hl
        cases ha : parts[place]? with
        | some part =>
            refine ⟨.part (some part), _, _, ?_, ?_, h.set index hl⟩
            · simp [CursorStep.take?, hc, hn, ha]
            · simp [CursorStep.takeAt?, hp, ha]
        | none =>
            have ended : Gives later [] := by
              have beyond := List.getElem?_eq_none_iff.mp ha
              rwa [List.drop_of_length_le (Nat.le_succ_of_le beyond)] at hl
            refine ⟨.part none, _, _, ?_, ?_, h.set_at_end hp ha ended⟩
            · simp [CursorStep.take?, hc, hn, ha]
            · simp [CursorStep.takeAt?, hp, ha]
    | clone index =>
        change cursors[index]? = _ at hc
        change places[index]? = _ at hp
        refine ⟨.cursor cursors.length, _, _, ?_, ?_, h.concat given⟩
        · simp [CursorStep.take?, hc]
        · simp [CursorStep.takeAt?, hp, h.length_eq]
    | rest index =>
        change cursors[index]? = _ at hc
        change places[index]? = _ at hp
        obtain ⟨later, hd, hl⟩ := given.drain
        rw [← List.drop_length] at hl
        refine ⟨.raws ((parts.drop place).map Part.raw), _, _, ?_, ?_, h.set index hl⟩
        · simp [CursorStep.take?, hc, hd]
        · simp [CursorStep.takeAt?, hp]

/-- Any sequence of steps is answered the same, by induction on the steps. -/
theorem answers (h : StandAt parts cursors places) (steps : List CursorStep)
    : CursorStep.answers? cursors steps = CursorStep.answersAt? parts places steps := by
  induction steps generalizing cursors places with
  | nil => rfl
  | cons first steps ih =>
      rw [CursorStep.answers?, CursorStep.answersAt?]
      rcases h.step first with ⟨hc, hp⟩ | ⟨answer, moved, later, hc, hp, hl⟩
      · rw [hc, hp]
        rfl
      · simp only [hc, hp, Option.bind_eq_bind, Option.bind_some, ih hl]

end StandAt

namespace CursorStep

/-- A step changes no cursor but its own, by the cases of the step. -/
theorem take?_other {step : CursorStep} {cursors moved : List Cursor} {answer : CursorAnswer}
    (h : step.take? cursors = some (answer, moved)) {other : Nat} {cursor : Cursor}
    (ho : other ≠ step.index) (hc : cursors[other]? = some cursor)
    : moved[other]? = some cursor := by
  cases step with
  | next index | rest index =>
      obtain ⟨own, -, he⟩ := Option.map_eq_some_iff.mp h
      have moves : ∃ later, moved = cursors.set index later := ⟨_, (congrArg Prod.snd he).symm⟩
      obtain ⟨later, rfl⟩ := moves
      exact (List.getElem?_set_ne (Ne.symm ho)).trans hc
  | clone index =>
      obtain ⟨own, -, he⟩ := Option.map_eq_some_iff.mp h
      obtain ⟨-, rfl⟩ := Prod.mk.inj he
      rw [List.getElem?_append_left (List.getElem?_eq_some_iff.mp hc).1, hc]

/-- The cursors of an expression are places in the list of its parts: all steps are answered as if
each cursor were the number of parts that it has passed. A step on one of them leaves the others as
they are, so it does not change what they answer.
-/
theorem answers_come_from_parts (options : Options) (expression : Text) (steps : List CursorStep)
    : answers? [Cursor.start options expression] steps
        = answersAt? (parts options expression) [0] steps
      ∧ ∀ (step : CursorStep) (cursors moved : List Cursor) (answer : CursorAnswer),
          step.take? cursors = some (answer, moved)
          → ∀ other cursor,
            other ≠ step.index
            → cursors[other]? = some cursor
            → moved[other]? = some cursor := by
  have started : StandAt (parts options expression) [Cursor.start options expression] [0] := by
    refine ⟨rfl, ?_⟩
    intro index cursor place hc hp
    obtain ⟨-, rfl⟩ := List.getElem?_eq_some_iff.mp hc
    obtain ⟨-, rfl⟩ := List.getElem?_eq_some_iff.mp hp
    simpa using gives_parts options expression
  exact ⟨started.answers steps, fun _ _ _ _ h _ _ => take?_other h⟩

/-- A clone taken between a leading globstar and the wildcard that the component keeps, which a step
on the first cursor leaves where it is.
-/
theorem clone_behind_leadingGlobstar
    : answers? [Cursor.start {} ['*', '*', 'a', '/']] [.next 0, .clone 0, .rest 0, .next 0, .next 1]
        = some
            [
              .part (some { raw := ['*'], kind := .globstar, items := [.globstar] }),
              .cursor 1,
              .raws [['*', 'a'], ['/']],
              .part none,
              .part
                (some
                  { raw := ['*', 'a'], kind := .wildcard, items := [.many false, .literal 'a'] })
            ]
      ∧ let behind := (Cursor.start {} ['*', '*', 'a', '/']).next.2
        ∃ answer moved,
          (CursorStep.rest 0).take? [behind, behind] = some (answer, moved)
          ∧ moved[1]? = some behind := by
  obtain ⟨same, others⟩ := answers_come_from_parts {} ['*', '*', 'a', '/']
    [.next 0, .clone 0, .rest 0, .next 0, .next 1]
  refine ⟨?_, _, _, rfl, ?_⟩
  · rw [same]
    decide
  · exact others (.rest 0) [_, _] _ _ rfl 1 _ (by decide) rfl

end CursorStep

end PathGlob
