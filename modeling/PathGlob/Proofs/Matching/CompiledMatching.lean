import PathGlob.Matcher
import PathGlob.Proofs.Matching.PreferredChoice
import PathGlob.Proofs.Segmentation.LastComponent

/-! What the patterns of a compiled glob match. The regular expression that is read from a
pattern is that of the items of its parts, and the search finds their preferred choice.
-/

namespace PathGlob

-----------------------------------------------------------------------------------------
-- The items in front of the group and those in it
-----------------------------------------------------------------------------------------

/-- The parts of the base path come first among all parts. -/
theorem baseParts_append_stemParts (parts : List Part)
    : baseParts parts ++ stemParts parts = parts := by
  have dropped := (parts.takeWhile fun part => !part.kind.isVariant).reverse.dropWhile_suffix
    fun part => part.kind != .pathSeparator
  have kept : baseParts parts <+: parts.takeWhile fun part => !part.kind.isVariant := by
    simpa [baseParts] using List.reverse_prefix.mpr dropped
  have first := kept.trans (List.takeWhile_prefix fun part : Part => !part.kind.isVariant)
  calc baseParts parts ++ stemParts parts
    _ = parts.take (baseParts parts).length ++ parts.drop (baseParts parts).length := by
        rw [← List.prefix_iff_eq_take.mp first, stemParts]
    _ = parts := List.take_append_drop ..

/-- The items of the base path of an expression, as its parts are read. -/
def leadReading (options : Options) (expression : Text) : List Item :=
  let parts := parts options expression
  ((readings (.ruleFor options expression) parts).take (baseParts parts).length).flatten

/-- The items of the stem of an expression, as its parts are read. -/
def stemReading (options : Options) (expression : Text) : List Item :=
  let parts := parts options expression
  ((readings (.ruleFor options expression) parts).drop (baseParts parts).length).flatten

theorem leadReading_eq (options : Options) (expression : Text)
    : leadReading options expression
      = (baseParts (parts options expression)).flatMap Part.items := by
  have split := baseParts_append_stemParts (parts options expression)
  simp only [leadReading, ← TrailingDot.ofExpression_eq_ruleFor, readings_parts, ← List.map_take]
  conv => lhs; arg 1; arg 2; arg 2; rw [← split]
  rw [List.take_left, List.flatMap_def]

theorem stemReading_eq (options : Options) (expression : Text)
    : stemReading options expression
      = (stemParts (parts options expression)).flatMap Part.items := by
  simp only [stemReading, ← TrailingDot.ofExpression_eq_ruleFor, readings_parts, ← List.map_drop]
  rw [stemParts, List.flatMap_def]

-----------------------------------------------------------------------------------------
-- The regular expressions that are read from the patterns
-----------------------------------------------------------------------------------------

namespace Glob

/-- The regular expression of a compiled glob is that of its items. -/
theorem ofParts_eq_ofItems (options : Options) (expression : Text)
    : Regex.ofParts options.anchored (parts options expression)
      = Regex.ofItems options.anchored (leadReading options expression)
          (stemReading options expression) := by
  simp only [Regex.ofParts, Regex.ofItems, leadReading_eq, stemReading_eq, List.map_flatMap]
  rfl

theorem build_eq (regex : Regex)
    : build regex.text
      = if regex.size ≤ Regex.sizeLimit then .ok regex else .error (.regex .tooLarge) := by
  rw [build, Regex.build_text]
  split <;> rfl

/-- The regular expression for whole paths is that of all items. -/
theorem regex_compile (options : Options) (expression : Text)
    : (compile options expression).regex
      = let regex := Regex.ofItems options.anchored (leadReading options expression)
          (stemReading options expression)
        if regex.size ≤ Regex.sizeLimit then .ok regex else .error (.regex .tooLarge) := by
  rw [← ofParts_eq_ofItems]
  exact build_eq _

theorem stemRegex_compile (options : Options) (expression : Text)
    : (compile options expression).stemRegex
      = let regex := Regex.ofItems options.anchored [] (stemReading options expression)
        if regex.size ≤ Regex.sizeLimit then .ok regex else .error (.regex .tooLarge) := by
  have same : (Regex.ofParts options.anchored (parts options expression)).stemOnly
      = Regex.ofItems options.anchored [] (stemReading options expression) := by
    rw [ofParts_eq_ofItems]
    rfl
  rw [← same]
  exact build_eq _

/-- The pattern of every compiled glob is that of a regular expression which is found in a path
exactly if the items of the parts consume a slice of it. What is found then is the preferred
choice of the items, by the search for regular expressions of items.
-/
theorem compile_finds_preferred (options : Options) (expression : Text)
    : ∃ regex,
        Regex.read? (compile options expression).pattern = some regex
        ∧ (compile options expression).matcher
          = (if regex.size ≤ Regex.sizeLimit then
              .ok { regex }
            else
              .error (.regex .tooLarge))
        ∧ ∀ path,
            ((regex.find? path).isSome = true
              ↔ Nonempty
                  (Choice options.anchored (leadReading options expression)
                    (stemReading options expression) path))
            ∧ ∀ found,
                regex.find? path = some found
                ↔ ∃ choice : Choice options.anchored (leadReading options expression)
                      (stemReading options expression) path,
                    choice.IsPreferred ∧ choice.toMatch = found := by
  refine ⟨Regex.ofItems options.anchored (leadReading options expression)
    (stemReading options expression), ?_, ?_, ?_⟩
  · rw [← ofParts_eq_ofItems]
    exact Regex.read?_text _
  · rw [matcher, regex_compile]
    dsimp only
    split <;> rfl
  · intro path
    exact ⟨Choice.find?_isSome_iff, fun found => Choice.find?_eq_some_iff⟩

end Glob

end PathGlob
