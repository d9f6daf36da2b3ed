import PathGlob.Proofs.Matching.BaseSpelling

/-! What is compiled can be read back from the written pattern: whether it is anchored, its items,
and where the group opens. No character of an expression can be taken for what marks a pattern.
-/

namespace PathGlob

-----------------------------------------------------------------------------------------
-- Patterns as items spell them
-----------------------------------------------------------------------------------------

/-- What an item is written as. A character is preceded by a backslash if it would mean something
else.
-/
def Item.spelling : Item → Text
  | literal c => if CharSet.metas.contains c then ['\\', c] else [c]
  | separator => ['[', '/', '\\', '\\', ']']
  | one false => ['[', '^', '/', '\\', '\\', ']']
  | one true => ['[', '^', '/', '\\', '\\', '.', ']']
  | many false => ['[', '^', '/', '\\', '\\', ']', '*']
  | many true => ['[', '^', '/', '\\', '\\', '.', ']', '*']
  | globstar =>
      ['(', '?', ':', '[', '^', '/', '\\', '\\', ']', '*', '[', '/', '\\', '\\', ']', ')', '*']

/-- The pattern of items, of which those of the stem stand in the group named for it. -/
def spelledPattern (anchored : Bool) (lead stem : List Item) : Text :=
  let opening := if anchored then ['^'] else []
  let ending := if anchored then ['$'] else []
  opening ++ lead.flatMap Item.spelling ++ ['(', '?', '<', 's', 't', 'e', 'm', '>']
    ++ stem.flatMap Item.spelling ++ [')'] ++ ending

theorem Item.text_term (item : Item) : item.term.text = item.spelling := by
  cases item with
  | literal c => rfl
  | separator => rfl
  | one isDotless | many isDotless => cases isDotless <;> rfl
  | globstar => rfl

theorem Item.flatMap_text_map_term (items : List Item)
    : (items.map Item.term).flatMap Term.text = items.flatMap Item.spelling := by
  simp only [List.flatMap_map, Item.text_term]

/-- The written form of a regular expression of items is what these spell. -/
theorem text_ofItems (anchored : Bool) (lead stem : List Item)
    : (Regex.ofItems anchored lead stem).text = spelledPattern anchored lead stem := by
  cases anchored <;>
    simp [Regex.text, Regex.body, Regex.ofItems, Regex.stemOpening, spelledPattern,
      Item.flatMap_text_map_term]

-----------------------------------------------------------------------------------------
-- Reading patterns back
-----------------------------------------------------------------------------------------

theorem Item.wildcardSet_inj {isDotless other : Bool}
    : wildcardSet isDotless = wildcardSet other ↔ isDotless = other := by
  cases isDotless <;> cases other <;> simp [wildcardSet]

/-- Different items are different steps of a regular expression. -/
theorem Item.term_injective : Function.Injective Item.term := by
  intro left right h
  cases left <;> cases right <;> simp_all [Item.term, Item.separatorSet, Item.wildcardSet_inj]
  all_goals cases h

/-- Items and the place where the group opens can be read back from what they spell, since writing a
regular expression can be undone.
-/
theorem spelledPattern_inj {left right : Bool} {lead first stem second : List Item}
    : spelledPattern left lead stem = spelledPattern right first second
      ↔ left = right ∧ lead = first ∧ stem = second := by
  refine ⟨fun h => ?_, fun h => by rw [h.1, h.2.1, h.2.2]⟩
  rw [← text_ofItems, ← text_ofItems] at h
  have read := congrArg Regex.read? h
  rw [Regex.read?_text, Regex.read?_text, Option.some.injEq, Regex.ofItems, Regex.ofItems,
    Regex.mk.injEq] at read
  obtain ⟨ha, hl, hs⟩ := read
  have items {left right : List Item} (he : left.map Item.term = right.map Item.term)
      : left = right :=
    (List.map_inj_right fun _ _ h => Item.term_injective h).mp he
  exact ⟨ha, items hl, items hs⟩

namespace Glob

theorem pattern_eq_spelled (options : Options) (expression : Text)
    : (compile options expression).pattern
      = spelledPattern options.anchored (leadReading options expression)
          (stemReading options expression) := by
  rw [← text_ofItems, ← ofParts_eq_ofItems]
  rfl

theorem stemPattern_eq_spelled (options : Options) (expression : Text)
    : (compile options expression).stemPattern
      = spelledPattern options.anchored [] (stemReading options expression) := by
  rw [← text_ofItems]
  change (Regex.ofParts options.anchored (parts options expression)).stemOnly.text = _
  rw [ofParts_eq_ofItems]
  rfl

/-- Patterns are uniquely decodable. Whatever characters an expression has, there is one way only to
take its pattern apart into items and the place where the group opens, and it is that of the parts.
Globs with one pattern agree in all that does not depend on the spelling of separators.
-/
theorem pattern_decodes (options : Options) (expression : Text)
    : (∀ anchored lead stem,
        (compile options expression).pattern = spelledPattern anchored lead stem
        ↔ anchored = options.anchored
          ∧ lead = leadReading options expression
          ∧ stem = stemReading options expression)
      ∧ ∀ others other,
        (compile others other).pattern = (compile options expression).pattern
        → others.anchored = options.anchored
          ∧ leadReading others other = leadReading options expression
          ∧ stemReading others other = stemReading options expression
          ∧ (compile others other).stemPattern = (compile options expression).stemPattern
          ∧ EqUpToSeparators (compile others other).basePath
              (compile options expression).basePath := by
  refine ⟨?_, ?_⟩
  · intro anchored lead stem
    rw [pattern_eq_spelled, spelledPattern_inj]
    simp only [eq_comm]
  · intro others other h
    rw [pattern_eq_spelled, pattern_eq_spelled] at h
    obtain ⟨ha, hl, hs⟩ := spelledPattern_inj.mp h
    refine ⟨ha, hl, hs, ?_, ?_⟩
    · rw [stemPattern_eq_spelled, stemPattern_eq_spelled, ha, hs]
    · have spelled := spells_basePath others other
      rw [hl] at spelled
      exact withSlashes_eq_iff.mp (spelled.withSlashes_eq (spells_basePath options expression))

/-- Characters that mark patterns, in expressions that differ in how they write a globstar and in
the separator in front of it.
-/
theorem pattern_decodes_marks
    : let slash := compile {} ['^', '(', '[', '/', '*', '*', ')', '$', '.']
      let backslash := compile { leadingGlobstar := false }
        ['^', '(', '[', '\\', '*', '*', '*', '/', '*', ')', '$', '.']
      backslash.pattern = slash.pattern
      ∧ backslash.stemPattern = slash.stemPattern
      ∧ EqUpToSeparators backslash.basePath slash.basePath := by
  intro slash backslash
  have same : backslash.pattern = slash.pattern := by decide
  have decoded := (pattern_decodes {} ['^', '(', '[', '/', '*', '*', ')', '$', '.']).2
    { leadingGlobstar := false } ['^', '(', '[', '\\', '*', '*', '*', '/', '*', ')', '$', '.'] same
  exact ⟨same, decoded.2.2.2.1, decoded.2.2.2.2⟩

end Glob

end PathGlob
