import PathGlob.Proofs.Segmentation.LeadingStars
import PathGlob.Proofs.Segmentation.PartReading

/-! The component that ends a text, and the rule for a dot at its end. The rule sees this component
alone, and whatever is in front of it ends a component itself.
-/

namespace PathGlob

/-- The text behind the last separator. -/
def lastComponent (text : Text) : Text :=
  (text.reverse.takeWhile fun c => !isSeparator c).reverse

theorem lastComponent_append {front name : Text} (hf : EndsComponent front) (hn : IsName name)
    : lastComponent (front ++ name) = name := by
  have reversed : IsName name.reverse := fun c hm => hn c (List.mem_reverse.mp hm)
  have whole := @takeWhile_name_append name.reverse front.reverse reversed
    (by simpa [EndsComponent] using hf)
  rw [lastComponent, List.reverse_append, whole, List.reverse_reverse]

-----------------------------------------------------------------------------------------
-- A dot behind a text
-----------------------------------------------------------------------------------------

/-- A single dot behind the text ends a name, as the text ends with neither a dot nor a separator.
-/
def AllowsDot (text : Text) : Prop :=
  ∃ c ∈ text.getLast?, c ≠ '.' ∧ isSeparator c = false

instance (text : Text) : Decidable (AllowsDot text) :=
  Option.decidableExistsMem text.getLast?

/-- A single dot ends the text, behind a name. -/
def EndsNameWithDot (text : Text) : Prop :=
  ∃ front, text = front ++ ['.'] ∧ AllowsDot front

theorem endsNameWithDot_iff {text : Text}
    : EndsNameWithDot text ↔ text.getLast? = some '.' ∧ AllowsDot text.dropLast := by
  constructor
  · rintro ⟨front, rfl, allowed⟩
    rw [List.getLast?_concat, List.dropLast_concat]
    exact ⟨rfl, allowed⟩
  · rintro ⟨dot, allowed⟩
    obtain ⟨front, rfl⟩ := List.getLast?_eq_some_iff.mp dot
    rw [List.dropLast_concat] at allowed
    exact ⟨front, rfl, allowed⟩

instance (text : Text) : Decidable (EndsNameWithDot text) :=
  decidable_of_iff _ endsNameWithDot_iff.symm

/-- Behind what ends a component, a text allows a dot if its own end does. -/
theorem allowsDot_append_iff {front text : Text} (hf : EndsComponent front)
    : AllowsDot (front ++ text) ↔ AllowsDot text := by
  unfold AllowsDot
  rw [List.getLast?_append]
  cases hl : text.getLast? with
  | some c => simp
  | none =>
      simp only [Option.none_or]
      refine ⟨fun h => ?_, fun h => ?_⟩
      · obtain ⟨c, hc, -, hs⟩ := h
        rw [hf c hc] at hs
        cases hs
      · obtain ⟨c, hc, -⟩ := h
        cases hc

/-- A text that allows a dot ends with a name that does. -/
theorem AllowsDot.exists_eq {text : Text} (ha : AllowsDot text)
    : ∃ front name,
        text = front ++ name
        ∧ EndsComponent front
        ∧ IsName name
        ∧ AllowsDot name
        ∧ lastComponent text = name := by
  obtain ⟨front, name, rfl, hf, hn⟩ := exists_eq_endsComponent_append text
  exact ⟨front, name, rfl, hf, hn, (allowsDot_append_iff hf).mp ha, lastComponent_append hf hn⟩

theorem AllowsDot.ne_nil {text : Text} (ha : AllowsDot text) : text ≠ [] := by
  rintro rfl
  obtain ⟨c, hc, -⟩ := ha
  cases hc

theorem IsName.dot {name : Text} (hn : IsName name) : IsName (name ++ ['.']) :=
  hn.append (by simp [IsName, isSeparator])

namespace TrailingDot

/-- What is looked for at the end of an expression is a single dot behind a name. -/
theorem endsName_iff {text : Text} : endsName text = true ↔ EndsNameWithDot text := by
  constructor
  · intro h
    unfold endsName at h
    split at h
    next previous rest hr =>
      refine ⟨(previous :: rest).reverse, ?_, previous, by simp, by simpa using h⟩
      rw [← List.reverse_reverse text, hr, List.reverse_cons]
    next => cases h
  · intro h
    obtain ⟨front, rfl, c, hc, hd, hs⟩ := h
    obtain ⟨front, rfl⟩ := List.getLast?_eq_some_iff.mp hc
    simp [endsName, hd, hs]

/-- What the dot at the end of a text means: no extension is asked for if the flag is set and a single
dot ends a name.
-/
def ruleFor (options : Options) (text : Text) : TrailingDot :=
  if options.wildcardDot = true ∧ EndsNameWithDot text then
    .noExtension options.literalDot
  else
    .literal

theorem ofExpression_eq_ruleFor (options : Options) (text : Text)
    : ofExpression options text = ruleFor options text :=
  if_congr (by rw [Bool.and_eq_true, endsName_iff]) rfl rfl

theorem ofExpression_dot {options : Options} (hw : options.wildcardDot = true) {text : Text}
    (ha : AllowsDot text)
    : ofExpression options (text ++ ['.']) = .noExtension options.literalDot := by
  rw [ofExpression_eq_ruleFor]
  exact if_pos ⟨hw, text, rfl, ha⟩

/-- There is no rule if the flag for it is not set or no single dot ends a name. -/
theorem ofExpression_of_inactive {options : Options} {text : Text}
    (h : options.wildcardDot = false ∨ ¬EndsNameWithDot text)
    : ofExpression options text = .literal := by
  rw [ofExpression_eq_ruleFor]
  refine if_neg fun active => ?_
  obtain ⟨hw, ends⟩ := active
  rcases h with h | h
  · rw [hw] at h
    cases h
  · exact h ends

/-- No dot ends a text that allows one. -/
theorem ofExpression_of_allowsDot (options : Options) {text : Text} (ha : AllowsDot text)
    : ofExpression options text = .literal := by
  refine ofExpression_of_inactive (Or.inr fun h => ?_)
  obtain ⟨front, rfl, -⟩ := h
  obtain ⟨c, hc, hd, -⟩ := ha
  rw [List.getLast?_concat] at hc
  exact hd (Option.some.inj hc).symm

end TrailingDot

-----------------------------------------------------------------------------------------
-- A last component without wildcards
-----------------------------------------------------------------------------------------

/-- A nonempty name without wildcards is one plain part. -/
theorem parts_plain (options : Options) {name : Text} (hn : IsName name) (he : name ≠ [])
    (hp : ∀ c ∈ name, isWildcard c = false)
    : parts options name
      = [.ofSegment (.ofExpression options name)
          { raw := name, kind := .plain, isLast := true }] := by
  rw [parts, segments_name _ hn, Segment.ofName_plain he hp]
  rfl

end PathGlob
