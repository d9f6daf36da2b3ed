import PathGlob.Proofs.Compilation.SlashedExpressions
import PathGlob.Proofs.Matching.Concatenation

/-! Whether the patterns of a glob can be built. The sizes of their items alone decide this, so what
is a piece of a glob can be built if the whole can, and anchors and the spelling of separators do
not matter.
-/

namespace PathGlob

/-- The bytes that an item takes once it is built, which count one by one for a character. -/
def Item.size : Item → Nat
  | literal c => 32 * c.utf8Size
  | separator => 80
  | one _ => 1036
  | many _ => 1076
  | globstar => 1196

/-- The bytes that items take together. -/
def Item.totalSize (items : List Item) : Nat :=
  items.foldr (fun item total => item.size + total) 0

/-- The term of an item takes the bytes of the item. -/
theorem itemsSize_eq_totalSize (items : List Item) : itemsSize items = Item.totalSize items := by
  have same (item : Item) : item.term.size = item.size := by
    cases item <;> rfl
  simp only [itemsSize, Item.totalSize, same]

namespace Glob

/-- Whether something has been built, and otherwise why not. -/
def verdict {α : Type} (built : Except GlobError α) : Except GlobError Unit :=
  built.map fun _ => ()

/-- The verdict on items by their sizes: these may add up to the limit and to no more. -/
def sizeVerdict (items : List Item) : Except GlobError Unit :=
  if Item.totalSize items ≤ Regex.sizeLimit then .ok () else .error (.regex .tooLarge)

theorem sizeVerdict_eq_ok_iff {items : List Item}
    : sizeVerdict items = .ok () ↔ Item.totalSize items ≤ Regex.sizeLimit := by
  unfold sizeVerdict
  split <;> simp_all

/-- Items that are built together with others can be built without them. -/
theorem sizeVerdict_of_append {left right : List Item} (h : sizeVerdict (left ++ right) = .ok ())
    : sizeVerdict left = .ok () ∧ sizeVerdict right = .ok () := by
  simp only [sizeVerdict_eq_ok_iff, ← itemsSize_eq_totalSize, itemsSize_append] at h ⊢
  omega

section
variable (options : Options) (expression : Text)

/-- The regular expression that is read from a pattern takes the bytes of the items it was made of.
-/
theorem verdict_regex
    : verdict (compile options expression).regex
      = sizeVerdict ((parts options expression).flatMap Part.items) := by
  simp only [regex_compile, size_ofItems, leadReading_append_stemReading, itemsSize_eq_totalSize]
  unfold sizeVerdict
  split <;> rfl

theorem verdict_stemRegex
    : verdict (compile options expression).stemRegex
      = sizeVerdict ((stemParts (parts options expression)).flatMap Part.items) := by
  simp only [stemRegex_compile, size_ofItems, List.nil_append, stemReading_eq, itemsSize_eq_totalSize]
  unfold sizeVerdict
  split <;> rfl

theorem verdict_matcher
    : verdict (compile options expression).matcher
      = verdict (compile options expression).regex := by
  rw [matcher]
  cases (compile options expression).regex <;> rfl

end

/-- Expressions that differ in their separators alone have the same regular expressions. -/
theorem regex_eq_of_eqUpToSeparators (options : Options) {left right : Text}
    (h : EqUpToSeparators left right)
    : (compile options left).regex = (compile options right).regex
      ∧ (compile options left).stemRegex = (compile options right).stemRegex := by
  have slashes := congrArg (compile options) (withSlashes_eq_iff.mpr h)
  simp only [compile_withSlashes, Glob.mk.injEq] at slashes
  exact ⟨congrArg build slashes.2.1, congrArg build slashes.2.2⟩

/-- Building fails exactly for items that are too large. The stem can be built if the whole glob can,
and so can the expressions on either side of a cut behind a separator. Neither anchors nor the
spelling of separators change what can be built.
-/
theorem build_monotone (options : Options) (expression : Text)
    : let glob := compile options expression
      (verdict glob.regex = sizeVerdict ((parts options expression).flatMap Part.items)
        ∧ verdict glob.matcher = verdict glob.regex
        ∧ verdict glob.stemRegex
          = sizeVerdict ((stemParts (parts options expression)).flatMap Part.items))
      ∧ (verdict glob.regex = .ok () → verdict glob.stemRegex = .ok ())
      ∧ (∀ value,
        let other := compile (options.set .anchored value) expression
        verdict other.regex = verdict glob.regex
        ∧ verdict other.stemRegex = verdict glob.stemRegex)
      ∧ (∀ spelling,
        EqUpToSeparators expression spelling
        → verdict (compile options spelling).regex = verdict glob.regex
          ∧ verdict (compile options spelling).stemRegex = verdict glob.stemRegex)
      ∧ ∀ left right,
          expression = left ++ right
          → EndsComponent left
          → verdict glob.regex = .ok ()
          → verdict (compile options left).regex = .ok ()
            ∧ verdict (compile options right).regex = .ok () := by
  intro glob
  have whole : verdict glob.regex = _ := verdict_regex options expression
  have stem : verdict glob.stemRegex = _ := verdict_stemRegex options expression
  refine ⟨⟨whole, verdict_matcher options expression, stem⟩, ?_, ?_, ?_, ?_⟩
  · intro h
    rw [whole, ← baseParts_append_stemParts (parts options expression), List.flatMap_append] at h
    rw [stem]
    exact (sizeVerdict_of_append h).2
  · intro value other
    -- Options that differ in their anchors have the same parts.
    have anchored : verdict other.regex = _ := verdict_regex (options.set .anchored value) expression
    have anchoredStem : verdict other.stemRegex = _ :=
      verdict_stemRegex (options.set .anchored value) expression
    exact ⟨anchored.trans whole.symm, anchoredStem.trans stem.symm⟩
  · intro spelling h
    obtain ⟨hr, hs⟩ := regex_eq_of_eqUpToSeparators options h
    exact ⟨congrArg verdict hr.symm, congrArg verdict hs.symm⟩
  · intro left right he hl h
    subst he
    rw [whole, parts_append options hl, List.flatMap_append] at h
    simp only [verdict_regex]
    exact sizeVerdict_of_append h

/-- A glob with a character of four bytes in front of a separator, with its stem, written with the
other separator, and cut there.
-/
theorem build_monotone_long_character
    : let glob := compile {} ['😀', '/', '*', '*', '/', '?', '.']
      verdict glob.regex = .ok ()
      ∧ verdict glob.stemRegex = .ok ()
      ∧ EqUpToSeparators ['😀', '/', '*', '*', '/', '?', '.'] ['😀', '\\', '*', '*', '/', '?', '.']
      ∧ verdict (compile {} ['😀', '\\', '*', '*', '/', '?', '.']).regex = verdict glob.regex
      ∧ EndsComponent ['😀', '/']
      ∧ verdict (compile {} ['😀', '/']).regex = .ok ()
      ∧ verdict (compile {} ['*', '*', '/', '?', '.']).regex = .ok () := by
  intro glob
  obtain ⟨⟨size, -⟩, stem, -, spelled, cut⟩ :=
    build_monotone {} ['😀', '/', '*', '*', '/', '?', '.']
  have small : verdict glob.regex = .ok () := size.trans (by decide)
  have same : EqUpToSeparators ['😀', '/', '*', '*', '/', '?', '.']
      ['😀', '\\', '*', '*', '/', '?', '.'] := by
    decide
  have ends : EndsComponent ['😀', '/'] := by simp [EndsComponent, isSeparator]
  obtain ⟨front, rear⟩ := cut ['😀', '/'] ['*', '*', '/', '?', '.'] rfl ends small
  exact ⟨small, stem small, same, (spelled _ same).1, ends, front, rear⟩

end Glob

end PathGlob
