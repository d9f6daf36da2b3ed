import PathGlob.Proofs.Matching.ComponentGlobs

/-! Names without an extension. A glob whose wildcards exclude dots matches those names that it
matches otherwise and that have as many dots as the glob itself.
-/

namespace PathGlob

-----------------------------------------------------------------------------------------
-- The dots of a name
-----------------------------------------------------------------------------------------

/-- One matcher accepts names with no fewer dots than given, and the dotless one accepts of these
names those with no more.
-/
structure ExcludesDots (dotless accepts : Text → Bool) (dots : Nat) : Prop where
  le_count : ∀ name, accepts name = true → dots ≤ name.count '.'
  iff_count : ∀ name, dotless name = true ↔ accepts name = true ∧ name.count '.' = dots

namespace ExcludesDots

variable {dotless accepts : Text → Bool} {dots : Nat}

/-- An asterisk skips characters that are no dots, by induction on the name. -/
theorem skips (h : ExcludesDots dotless accepts dots)
    : ExcludesDots (skipsTo true dotless) (skipsTo false accepts) dots := by
  have fewer (name : Text) (hs : skipsTo false accepts name = true) : dots ≤ name.count '.' := by
    induction name with
    | nil => exact h.le_count [] hs
    | cons c name ih =>
        rw [skipsTo, Bool.or_eq_true] at hs
        rcases hs with hs | hs
        · exact h.le_count _ hs
        · exact Nat.le_trans (ih (by simpa using hs)) List.count_le_count_cons
  refine ⟨fewer, fun name => ?_⟩
  induction name with
  | nil => exact h.iff_count []
  | cons c name ih =>
      rw [skipsTo, skipsTo, Bool.or_eq_true, Bool.or_eq_true, h.iff_count]
      by_cases hc : c = '.'
      · -- What skips a dot accepts one dot more than is left to be matched, and so too many.
        subst hc
        have crowded : ¬(skipsTo false accepts name = true ∧ name.count '.' + 1 = dots) := by
          intro hs
          have enough := fewer name hs.1
          omega
        simp [or_and_right, crowded]
      · simp [hc, ih, ← or_and_right]

/-- A question mark takes one character that is no dot. -/
theorem takesAny (h : ExcludesDots dotless accepts dots)
    : ExcludesDots (takesTo (fun d => !(true && d == '.')) dotless)
        (takesTo (fun d => !(false && d == '.')) accepts) dots := by
  refine ⟨fun name ht => ?_, fun name => ?_⟩
  · cases name with
    | nil => cases ht
    | cons c name => exact Nat.le_trans (h.le_count name ht) List.count_le_count_cons
  · cases name with
    | nil => simp [takesTo]
    | cons c name =>
        by_cases hc : c = '.'
        · subst hc
          have crowded : ¬(accepts name = true ∧ name.count '.' + 1 = dots) := by
            intro ha
            have enough := h.le_count name ha.1
            omega
          simpa [takesTo] using crowded
        · simp [takesTo, hc, h.iff_count]

/-- Any other character takes itself, be it a dot or not. -/
theorem takes (h : ExcludesDots dotless accepts dots) (c : Char)
    : ExcludesDots (takesTo (fun d => c == d) dotless) (takesTo (fun d => c == d) accepts)
        (dots + if c == '.' then 1 else 0) := by
  refine ⟨fun name ht => ?_, fun name => ?_⟩
  · cases name with
    | nil => cases ht
    | cons d name =>
        obtain ⟨hd, ht⟩ := Bool.and_eq_true_iff.mp ht
        rw [← eq_of_beq hd, List.count_cons]
        exact Nat.add_le_add_right (h.le_count name ht) _
  · cases name with
    | nil => simp [takesTo]
    | cons d name =>
        rw [takesTo, takesTo, Bool.and_eq_true, Bool.and_eq_true, h.iff_count, and_assoc,
          List.count_cons]
        refine and_congr_right fun hd => and_congr_right fun _ => ?_
        rw [← eq_of_beq hd, Nat.add_right_cancel_iff]

end ExcludesDots

/-- Dotless wildcards match the names with as many dots as the glob, by induction on it. -/
theorem excludesDots_nameMatches (glob : Text)
    : ExcludesDots (nameMatches true glob) (nameMatches false glob) (glob.count '.') := by
  induction glob with
  | nil =>
      refine ⟨by simp, fun name => ?_⟩
      cases name <;> simp [nameMatches]
  | cons c glob ih =>
      rw [nameMatches, nameMatches, List.count_cons]
      by_cases hs : c = '*'
      · subst hs
        exact ih.skips
      · by_cases hq : c = '?'
        · subst hq
          exact ih.takesAny
        · rw [if_neg hs, if_neg hs, if_neg hq, if_neg hq]
          exact ih.takes c

-----------------------------------------------------------------------------------------
-- The dots of a last component
-----------------------------------------------------------------------------------------

namespace ComponentGlob

theorem dropsTo_cons_iff {accepts : List Text → Bool} {component : Text} {components : List Text}
    : dropsTo accepts (component :: components) = true
      ↔ accepts (component :: components) = true ∨ dropsTo accepts components = true := by
  rw [dropsTo, Bool.or_eq_true]

/-- A condition on the last component holds of it wherever components have been dropped, since not
all of them are. The induction is on the components.
-/
theorem dropsTo_iff_and_last {accepts others : List Text → Bool} {holds : Text → Prop}
    (h : ∀ components,
      accepts components = true
      ↔ others components = true ∧ ∀ last ∈ components.getLast?, holds last)
    (components : List Text)
    : dropsTo accepts components = true
      ↔ dropsTo others components = true ∧ ∀ last ∈ components.getLast?, holds last := by
  induction components with
  | nil => simp [dropsTo]
  | cons component components ih =>
      cases components with
      | nil => simp [dropsTo, h]
      | cons next components =>
          rw [List.getLast?_cons_cons, dropsTo_cons_iff, @dropsTo_cons_iff _ component,
            or_and_right]
          exact or_congr (h _) ih

/-- To ask for a final name with dotless wildcards is to ask for as many dots as its glob has, by
induction on what is asked for in front of it.
-/
theorem accepts_dotless_iff (globs : List ComponentGlob) (glob : Text) (components : List Text)
    : accepts (globs ++ [name true glob]) components = true
      ↔ accepts (globs ++ [name false glob]) components = true
        ∧ ∀ last ∈ components.getLast?, last.count '.' = glob.count '.' := by
  induction globs generalizing components with
  | nil =>
      rcases components with _ | ⟨component, _ | ⟨next, components⟩⟩
      · simp [accepts]
      · simp [accepts, (excludesDots_nameMatches glob).iff_count]
      · simp [accepts]
  | cons first globs ih =>
      cases first with
      | tree => exact dropsTo_iff_and_last ih components
      | name isDotless own =>
          rcases components with _ | ⟨component, _ | ⟨next, components⟩⟩
          · simp [accepts]
          · simp [accepts, accepts_nil_of_ne_nil]
          · simp [accepts, ih, and_assoc]

end ComponentGlob

end PathGlob
