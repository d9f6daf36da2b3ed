import PathGlob.Proofs.Matching.Acceptance

/-! Globs composed where a component ends. An expression that is cut after a separator has the
parts of its two sides, and matches what the first side and then the second one match.
-/

namespace PathGlob

/-- The bytes that the terms of items take once they are built. -/
def itemsSize (items : List Item) : Nat :=
  items.foldr (fun item size => item.term.size + size) 0

/-- Sizes add up along concatenation, by induction on the left items. -/
theorem itemsSize_append (left right : List Item)
    : itemsSize (left ++ right) = itemsSize left + itemsSize right := by
  induction left with
  | nil => simp [itemsSize]
  | cons item left ih => simp_all [itemsSize, Nat.add_assoc]

/-- A regular expression of items takes the bytes of these, wherever its group begins. -/
theorem size_ofItems (anchored : Bool) (lead stem : List Item)
    : (Regex.ofItems anchored lead stem).size = itemsSize (lead ++ stem) := by
  rw [Regex.size, Regex.ofItems, ← List.map_append, List.foldr_map]
  rfl

namespace Glob

/-- A matcher can be built exactly if the items of all parts are within the size limit. -/
theorem exists_matcher_iff {options : Options} {expression : Text}
    : (∃ matcher, (compile options expression).matcher = .ok matcher)
      ↔ itemsSize ((parts options expression).flatMap Part.items) ≤ Regex.sizeLimit := by
  rw [← leadReading_append_stemReading, ← size_ofItems options.anchored]
  simp only [matcher_eq_ok_iff, exists_and_left, exists_eq', and_true]

/-- Compilation composes where a component ends: parts do, and an anchored glob matches the
paths that are put together from paths that the two globs match. Either of them is no larger
than the whole, so it can be built.
-/
theorem compile_append (options : Options) {left : Text} (hl : EndsComponent left) (right : Text)
    : parts options (left ++ right) = parts options left ++ parts options right
      ∧ ∀ whole,
        options.anchored = true
        → (compile options (left ++ right)).matcher = .ok whole
        → ∃ first second,
            (compile options left).matcher = .ok first
            ∧ (compile options right).matcher = .ok second
            ∧ ∀ path,
                whole.isMatch path = true
                ↔ ∃ head tail,
                    path = head ++ tail
                    ∧ first.isMatch head = true
                    ∧ second.isMatch tail = true := by
  refine ⟨parts_append options hl right, ?_⟩
  intro whole ha hw
  have size := exists_matcher_iff.mp ⟨whole, hw⟩
  rw [parts_append options hl, List.flatMap_append, itemsSize_append] at size
  obtain ⟨first, hf⟩ := (@exists_matcher_iff options left).mpr (by omega)
  obtain ⟨second, hs⟩ := (@exists_matcher_iff options right).mpr (by omega)
  refine ⟨first, second, hf, hs, fun path => ?_⟩
  rw [isMatch_iff_accepts ha hw, parts_append options hl, List.flatMap_append, accepts_append_iff]
  simp only [isMatch_iff_accepts ha hf, isMatch_iff_accepts ha hs]

/-- A tree with the separator that it is folded with, in front of a dotless name. The tree takes one
component of the first path, and none of the second one.
-/
theorem isMatch_tree_append_dotless_name
    : ∃ whole first second,
        (compile {} ['*', '*', '/', '*', '.']).matcher = .ok whole
        ∧ (compile {} ['*', '*', '/']).matcher = .ok first
        ∧ (compile {} ['*', '.']).matcher = .ok second
        ∧ whole.isMatch ['a', '/', 'b'] = true
        ∧ (∃ head tail,
            ['a', '/', 'b'] = head ++ tail
            ∧ first.isMatch head = true
            ∧ second.isMatch tail = true)
        ∧ whole.isMatch ['b'] = true
        ∧ ∃ head tail,
            ['b'] = head ++ tail
            ∧ first.isMatch head = true
            ∧ second.isMatch tail = true := by
  have built := (@matcher_eq_ok_iff {} ['*', '*', '/', '*', '.'] _).mpr ⟨by decide, rfl⟩
  have ends : EndsComponent ['*', '*', '/'] := by simp [EndsComponent, isSeparator]
  obtain ⟨first, second, hf, hs, hm⟩ := (compile_append {} ends ['*', '.']).2 _ rfl built
  refine ⟨_, first, second, built, hf, hs, ?_⟩
  exact ⟨by decide, (hm _).mp (by decide), by decide, (hm _).mp (by decide)⟩

end Glob

end PathGlob
