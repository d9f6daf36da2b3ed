import PathGlob.Proofs.Compilation.PartDependence
import PathGlob.Proofs.Segmentation.Slashes

/-! What is compiled does not depend on which separators an expression is written with. They stay
in raw texts and in the base path alone, and patterns do not show them.
-/

namespace PathGlob

namespace Glob

/-- An expression written with slashes has the glob of the expression, but for the separators of the
base path.
-/
theorem compile_withSlashes (options : Options) (expression : Text)
    : compile options (withSlashes expression)
      = {
          compile options expression with
          basePath := withSlashes (compile options expression).basePath
        } := by
  have kept (part : Part) : part.slashed.kind = part.kind := rfl
  have bared (parts : List Part)
      : (parts.map Part.slashed).map Part.bare = parts.map Part.bare := by
    rw [List.map_map]
    rfl
  have path (parts : List Part)
      : (baseParts (parts.map Part.slashed)).flatMap Part.raw
        = withSlashes ((baseParts parts).flatMap Part.raw) := by
    rw [baseParts_map kept, List.flatMap_map, withSlashes, List.map_flatMap]
    rfl
  rw [compile_eq_ofParts, compile_eq_ofParts, parts_withSlashes, ofParts, path,
    Regex.ofParts_congr (bared _)]
  rfl

/-- Compilation ignores how separators are written. Expressions that differ in nothing else have the
same parts but for the separators of raw texts, the same patterns, and base paths that are equally
long and differ in nothing else.
-/
theorem compile_ignores_spelling (options : Options) {left right : Text}
    (h : EqUpToSeparators left right)
    : List.Forall₂
          (fun first second =>
            EqUpToSeparators first.raw second.raw
            ∧ first.kind = second.kind
            ∧ first.pattern = second.pattern)
          (parts options left) (parts options right)
      ∧ (compile options left).pattern = (compile options right).pattern
      ∧ (compile options left).stemPattern = (compile options right).stemPattern
      ∧ Text.byteLength (compile options left).basePath
        = Text.byteLength (compile options right).basePath
      ∧ EqUpToSeparators (compile options left).basePath (compile options right).basePath := by
  have slashes := withSlashes_eq_iff.mpr h
  have pieces : (parts options left).map Part.slashed = (parts options right).map Part.slashed := by
    rw [← parts_withSlashes, slashes, parts_withSlashes]
  have globs := congrArg (compile options) slashes
  rw [compile_withSlashes, compile_withSlashes, Glob.mk.injEq] at globs
  obtain ⟨hb, hp, hs⟩ := globs
  have paths := withSlashes_eq_iff.mp hb
  refine ⟨?_, hp, hs, paths.byteLength_eq, paths⟩
  rw [← List.forall₂_eq_eq_eq, List.forall₂_map_left_iff, List.forall₂_map_right_iff] at pieces
  refine pieces.imp fun first second he => ?_
  rw [Part.slashed, Part.slashed, Part.mk.injEq] at he
  obtain ⟨hr, hk, hi⟩ := he
  have written : first.pattern = second.pattern := by simp only [Part.pattern, Part.terms, hi]
  exact ⟨withSlashes_eq_iff.mp hr, hk, written⟩

/-- Separators of both kinds in the base path, behind a globstar that is folded with one of them,
and in front of the component that a dot ends.
-/
theorem compile_ignores_spelling_mixed
    : let left := ['+', '/', '^', '\\', '*', '*', '\\', 'a', '/', '*', '*', 'b', '.']
      let right := ['+', '\\', '^', '\\', '*', '*', '/', 'a', '\\', '*', '*', 'b', '.']
      EqUpToSeparators left right
      ∧ (compile {} left).pattern = (compile {} right).pattern
      ∧ (compile {} left).stemPattern = (compile {} right).stemPattern
      ∧ EqUpToSeparators (compile {} left).basePath (compile {} right).basePath := by
  intro left right
  have h : EqUpToSeparators left right := by decide
  obtain ⟨-, hp, hs, -, hb⟩ := compile_ignores_spelling {} h
  exact ⟨h, hp, hs, hb⟩

end Glob

end PathGlob
