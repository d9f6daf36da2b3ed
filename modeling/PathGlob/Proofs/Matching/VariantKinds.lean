import PathGlob.Proofs.Matching.LeadingGlobstars
import PathGlob.Proofs.Segmentation.CanonicalPieces
import PathGlob.Proofs.Segmentation.Slashes

/-! Globs that match one path and globs that match several. A wildcard or a globstar gives paths that
differ in more than their separators, whatever stands around it, and no other part does.
-/

namespace PathGlob

-----------------------------------------------------------------------------------------
-- Texts that the same items accept
-----------------------------------------------------------------------------------------

/-- Whether the item accepts texts that differ in more than their separators. -/
def Item.isVariant : Item → Bool
  | literal _ | separator => false
  | one _ | many _ | globstar => true

theorem accepts_singleton {item : Item} {own : List Nat} {text : Text}
    (h : item.Consumes own text)
    : Accepts [item] text :=
  accepts_cons_iff.mpr ⟨own, text, [], by simp, h, accepts_nil_iff.mpr rfl⟩

/-- Every item accepts two texts, which are the same for an item that is not variant. -/
theorem Item.exists_accepts (item : Item)
    : ∃ left right,
        Accepts [item] left
        ∧ Accepts [item] right
        ∧ (item.isVariant = true → ¬EqUpToSeparators left right) := by
  cases item with
  | literal c =>
      have own := accepts_singleton (.literal c)
      exact ⟨[c], [c], own, own, by simp [isVariant]⟩
  | separator =>
      have own := accepts_singleton (@Consumes.separator '/' rfl)
      exact ⟨['/'], ['/'], own, own, by simp [isVariant]⟩
  | one isDotless =>
      have own (c : Char) (h : admits isDotless c = true) := accepts_singleton (Consumes.one h)
      refine ⟨['a'], ['b'], own 'a' ?_, own 'b' ?_, fun _ => by decide⟩
      all_goals cases isDotless <;> rfl
  | many isDotless =>
      have admitted : ∀ c ∈ ['a'], admits isDotless c = true := by
        cases isDotless <;> simp [admits, isSeparator]
      exact ⟨[], ['a'], accepts_singleton (.many (List.forall_mem_nil _)),
        accepts_singleton (.many admitted), fun _ => by decide⟩
  | globstar =>
      have complete : ∀ component ∈ [['/']], IsCompleteComponent component := by
        simp [isCompleteComponent_cons_iff, isSeparator]
      exact ⟨[], ['/'], accepts_singleton (@Consumes.globstar [] (List.forall_mem_nil _)),
        accepts_singleton (.globstar complete), fun _ => by decide⟩

/-- There are texts for all items, by induction on the items. -/
theorem exists_accepts_items (items : List Item) : ∃ text, Accepts items text := by
  induction items with
  | nil => exact ⟨[], accepts_nil_iff.mpr rfl⟩
  | cons item items ih =>
      obtain ⟨head, -, first, -⟩ := item.exists_accepts
      obtain ⟨tail, others⟩ := ih
      exact ⟨head ++ tail, first.append others⟩

/-- Items that are not variant accept one text with its separators written in any way, by induction
on the items.
-/
theorem eqUpToSeparators_of_accepts {items : List Item}
    (h : ∀ item ∈ items, item.isVariant = false) {left right : Text} (hl : Accepts items left)
    (hr : Accepts items right)
    : EqUpToSeparators left right := by
  induction items generalizing left right with
  | nil =>
      obtain rfl := accepts_nil_iff.mp hl
      obtain rfl := accepts_nil_iff.mp hr
      exact .nil
  | cons item items ih =>
      obtain ⟨own, others⟩ := List.forall_mem_cons.mp h
      cases item with
      | literal c =>
          obtain ⟨first, rfl, hf⟩ := accepts_literal_iff.mp hl
          obtain ⟨second, rfl, hs⟩ := accepts_literal_iff.mp hr
          exact .cons (Or.inl rfl) (ih others hf hs)
      | separator =>
          obtain ⟨c, first, rfl, hc, hf⟩ := accepts_separator_iff.mp hl
          obtain ⟨d, second, rfl, hd, hs⟩ := accepts_separator_iff.mp hr
          exact .cons (Or.inr ⟨hc, hd⟩) (ih others hf hs)
      | one isDotless | many isDotless | globstar => cases own

/-- Texts are equal up to their separators if they are with the same texts around them. -/
theorem EqUpToSeparators.inside {front left right rear : Text}
    (h : EqUpToSeparators (front ++ left ++ rear) (front ++ right ++ rear))
    : EqUpToSeparators left right := by
  have slashes := withSlashes_eq_iff.mpr h
  simp only [withSlashes_append, List.append_assoc] at slashes
  have inner := List.append_cancel_right (List.append_cancel_left slashes)
  exact withSlashes_eq_iff.mp inner

/-- All texts of some items are equal up to their separators exactly if no item is variant. -/
theorem accepts_eqUpToSeparators_iff {items : List Item}
    : (∀ left right, Accepts items left → Accepts items right → EqUpToSeparators left right)
      ↔ ∀ item ∈ items, item.isVariant = false := by
  refine ⟨fun h item hm => ?_, fun h left right => eqUpToSeparators_of_accepts h⟩
  refine Bool.eq_false_iff.mpr fun hv => ?_
  -- Whatever the items around the variant one accept goes around each of its two texts.
  obtain ⟨before, after, rfl⟩ := List.append_of_mem hm
  obtain ⟨front, hf⟩ := exists_accepts_items before
  obtain ⟨rear, hr⟩ := exists_accepts_items after
  obtain ⟨first, second, one, other, different⟩ := item.exists_accepts
  have around {text : Text} (own : Accepts [item] text)
      : Accepts (before ++ item :: after) (front ++ text ++ rear) := by
    simpa using (hf.append own).append hr
  exact different hv (h _ _ (around one) (around other)).inside

-----------------------------------------------------------------------------------------
-- Kinds of parts
-----------------------------------------------------------------------------------------

theorem Item.any_isVariant_ofLiteral (text : Text)
    : (ofLiteral text).any isVariant = false := by
  simp [ofLiteral, isVariant]

/-- One pass finds a variant item exactly if there is a wildcard, by induction on the pass. -/
theorem Item.any_isVariant_scan (isDotless : Bool) (text : Text)
    : (scan isDotless text).any isVariant = text.any isWildcard := by
  fun_induction scan isDotless text with
  | case1 => rfl
  | case2 rest hs ih =>
      -- The asterisk gives no item, but the one behind it does.
      obtain ⟨later, rfl⟩ := List.head?_eq_some_iff.mp hs
      simpa [isWildcard] using ih
  | case3 rest hs ih | case4 rest hd ih => simp [isVariant, isWildcard]
  | case5 c rest hd hq ih => simp [isVariant, isWildcard, hd, hq, ih]

theorem Text.any_isWildcard_withoutDot (text : Text)
    : text.withoutDot.any isWildcard = text.any isWildcard := by
  unfold withoutDot
  split
  next h =>
    obtain ⟨front, rfl⟩ := List.getLast?_eq_some_iff.mp h
    simp [isWildcard]
  next => rfl

/-- The kind of a piece says whether its raw text has wildcards, by the laws that it keeps. -/
theorem Piece.Fits.any_isWildcard {leadingGlobstar : Bool} {previous next : Option Piece}
    {piece : Piece} (h : piece.Fits leadingGlobstar previous next)
    : piece.raw.any isWildcard = piece.kind.isVariant := by
  cases hk : piece.kind with
  | pathSeparator =>
      rcases h.separator hk with hr | hr
      all_goals
        rw [hr]
        rfl
  | plain => simpa [Kind.isVariant] using (h.plain hk).2
  | wildcard => simpa [Kind.isVariant] using (h.wildcard hk).2
  | globstar =>
      exact List.any_eq_true.mpr ⟨'*', List.mem_of_head? (h.head?_of_globstar hk), rfl⟩

/-- Some item of a segment is variant exactly if its kind is, since no dot is a wildcard. -/
theorem Segment.any_isVariant_items {segment : Segment}
    (h : segment.raw.any isWildcard = segment.kind.isVariant) (trailing : TrailingDot)
    : (segment.items trailing).any Item.isVariant = segment.kind.isVariant := by
  unfold items
  cases hk : segment.kind with
  | pathSeparator | globstar => rfl
  | plain =>
      simp only
      split <;> exact Item.any_isVariant_ofLiteral _
  | wildcard =>
      simp only [Item.ofWildcard_eq_scan]
      rw [hk] at h
      split <;> simp only [Item.any_isVariant_scan, Text.any_isWildcard_withoutDot, h]

section
variable {options : Options} {expression : Text} {part : Part}
  (hm : part ∈ parts options expression)
include hm

theorem any_isWildcard_raw : part.raw.any isWildcard = part.kind.isVariant := by
  obtain ⟨segment, hs, rfl⟩ := List.mem_map.mp hm
  have fits := @allFit_segments options.leadingGlobstar expression
  obtain ⟨previous, next, own⟩ := fits.exists_fits (List.mem_map_of_mem hs)
  exact own.any_isWildcard

theorem any_isVariant_items : part.items.any Item.isVariant = part.kind.isVariant := by
  have raw := any_isWildcard_raw hm
  obtain ⟨segment, -, rfl⟩ := List.mem_map.mp hm
  exact Segment.any_isVariant_items raw _

end

/-- An expression has no variant part exactly if it has no wildcard. -/
theorem parts_invariant_iff {options : Options} {expression : Text}
    : (∀ part ∈ parts options expression, part.kind.isVariant = false)
      ↔ ∀ c ∈ expression, isWildcard c = false := by
  have raws (part : Part) (hm : part ∈ parts options expression)
      : part.kind.isVariant = false ↔ ∀ c ∈ part.raw, isWildcard c = false := by
    rw [← any_isWildcard_raw hm]
    simp
  have joined := flatMap_raw_parts options expression
  conv => rhs; rw [← joined]
  simp only [List.forall_mem_flatMap]
  exact forall₂_congr raws

/-- Some item of an expression is variant exactly if some part is. -/
theorem items_invariant_iff {options : Options} {expression : Text}
    : (∀ item ∈ (parts options expression).flatMap Part.items, item.isVariant = false)
      ↔ ∀ part ∈ parts options expression, part.kind.isVariant = false := by
  simp only [List.forall_mem_flatMap]
  refine forall₂_congr fun part hm => ?_
  rw [← any_isVariant_items hm]
  simp

namespace Glob

/-- Kinds tell which globs match several paths. Every anchored glob matches a path, and all that it
matches are equal up to their separators exactly if no part has a variant kind, which is to say that
the expression has no wildcard.
-/
theorem isMatch_varies_iff {options : Options} (ha : options.anchored = true)
    {expression : Text} {matcher : Matcher}
    (hm : (compile options expression).matcher = .ok matcher)
    : (∃ path, matcher.isMatch path = true)
      ∧ ((∀ left right,
          matcher.isMatch left = true
          → matcher.isMatch right = true
          → EqUpToSeparators left right)
        ↔ ∀ part ∈ parts options expression, part.kind.isVariant = false)
      ∧ ((∀ part ∈ parts options expression, part.kind.isVariant = false)
        ↔ ∀ c ∈ expression, isWildcard c = false) := by
  refine ⟨?_, ?_, parts_invariant_iff⟩
  · obtain ⟨path, h⟩ := exists_accepts_items ((parts options expression).flatMap Part.items)
    exact ⟨path, (isMatch_iff_accepts ha hm path).mpr h⟩
  · simp only [isMatch_iff_accepts ha hm]
    exact accepts_eqUpToSeparators_iff.trans items_invariant_iff

/-- A last component with a wildcard and a dot that is dropped, and one without any wildcard. -/
theorem isMatch_varies_with_wildcard
    : ∃ variant plain,
        (compile {} ['a', '/', '?', '.']).matcher = .ok variant
        ∧ (compile {} ['a', '/', 'b', '.']).matcher = .ok plain
        ∧ (∃ left right,
          variant.isMatch left = true
          ∧ variant.isMatch right = true
          ∧ ¬EqUpToSeparators left right)
        ∧ (∃ path, plain.isMatch path = true)
        ∧ ∀ left right,
            plain.isMatch left = true
            → plain.isMatch right = true
            → EqUpToSeparators left right := by
  have variant := (@matcher_eq_ok_iff {} ['a', '/', '?', '.'] _).mpr ⟨by decide, rfl⟩
  have plain := (@matcher_eq_ok_iff {} ['a', '/', 'b', '.'] _).mpr ⟨by decide, rfl⟩
  obtain ⟨-, several, wildcard⟩ := isMatch_varies_iff rfl variant
  obtain ⟨found, single, literal⟩ := isMatch_varies_iff rfl plain
  have noWildcard : ∀ c ∈ ['a', '/', 'b', '.'], isWildcard c = false := by simp [isWildcard]
  have hasWildcard : ¬∀ c ∈ ['a', '/', '?', '.'], isWildcard c = false := by simp [isWildcard]
  refine ⟨_, _, variant, plain, ?_, found, single.mpr (literal.mpr noWildcard)⟩
  have varies := mt (fun h => wildcard.mp (several.mp h)) hasWildcard
  simpa using varies

end Glob

end PathGlob
