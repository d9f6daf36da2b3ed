import PathGlob.Proofs.Matching.BaseFactorization

/-! Paths that differ in how their separators are written. No set of a compiled glob tells the
separators apart, so a search takes the same steps in all these paths and finds the same spans.
-/

namespace PathGlob

-----------------------------------------------------------------------------------------
-- Regular expressions that do not tell separators apart
-----------------------------------------------------------------------------------------

/-- The set has both separators or neither of them. -/
def CharSet.IgnoresSpelling (set : CharSet) : Prop :=
  ∀ c, set.contains (slashed c) = set.contains c

/-- No set of the term tells the separators apart. -/
def Term.IgnoresSpelling : Term → Prop
  | one set | many set => set.IgnoresSpelling
  | loop inner closing => inner.IgnoresSpelling ∧ closing.IgnoresSpelling

namespace Regex

def Place.IgnoresSpelling : Place → Prop
  | .term step => step.IgnoresSpelling
  | .stemStart => True

theorem whenIn_slashed {set : CharSet} (hs : set.IgnoresSpelling) (c : Char)
    (outcome : Option Outcome)
    : whenIn set (some (slashed c)) outcome = whenIn set (some c) outcome := by
  rw [whenIn, whenIn, Option.any_some, Option.any_some, hs c]

/-- A slot is moved in the same way before either separator, by the cases of its place. -/
theorem retreat_slashed {slot : Slot} (hs : slot.place.IgnoresSpelling) (offset : Nat) (c : Char)
    (now later : Option Outcome)
    : slot.retreat offset (some (slashed c)) now later
      = slot.retreat offset (some c) now later := by
  unfold Slot.retreat
  unfold Place.IgnoresSpelling Term.IgnoresSpelling at hs
  cases hp : slot.place with
  | stemStart => rfl
  | term term =>
      rw [hp] at hs
      cases term with
      | one set | many set => simp only [whenIn_slashed hs]
      | loop inner closing => simp only [whenIn_slashed hs.1, whenIn_slashed hs.2]

section
variable {length : Nat} {anchored : Bool}

/-- A slot is the same in both texts if the outcomes after its place are, by induction on the
text.
-/
theorem slotBefore_withSlashes {place : Place} (hp : place.IgnoresSpelling)
    {after : Text → Option Outcome} (ha : ∀ text, after (withSlashes text) = after text)
    (text : Text)
    : place.slotBefore length after (withSlashes text) = place.slotBefore length after text := by
  induction text with
  | nil => rfl
  | cons c rest ih =>
      have kept : (place.slotBefore length after rest).place.IgnoresSpelling := by
        rw [slotBefore_place]
        exact hp
      -- Both rests take the same number of bytes, so the slot is moved at the same offset.
      rw [withSlashes_cons, Place.slotBefore, Place.slotBefore, ih, retreat_slashed kept, ha rest,
        ← withSlashes_cons, byteLength_withSlashes, ha]

/-- The outcome of places is the same in both texts, by induction on the places. -/
theorem outcomeOf_withSlashes {places : List Place}
    (hp : ∀ place ∈ places, place.IgnoresSpelling) (text : Text)
    : outcomeOf length anchored places (withSlashes text)
      = outcomeOf length anchored places text := by
  induction places generalizing text with
  | nil =>
      have empty : (withSlashes text).isEmpty = text.isEmpty := List.isEmpty_map
      rw [outcomeOf, outcomeOf, byteLength_withSlashes, empty]
  | cons place places ih =>
      obtain ⟨hp, others⟩ := List.forall_mem_cons.mp hp
      rw [outcomeOf, outcomeOf, slotBefore_withSlashes hp (ih others)]

theorem matchAt_withSlashes {places : List Place}
    (hp : ∀ place ∈ places, place.IgnoresSpelling) (text : Text)
    : matchAt length anchored places (withSlashes text) = matchAt length anchored places text := by
  simp only [matchAt, byteLength_withSlashes, outcomeOf_withSlashes hp]

theorem firstMatch_withSlashes {places : List Place}
    (hp : ∀ place ∈ places, place.IgnoresSpelling) (text : Text)
    : firstMatch length anchored places (withSlashes text)
      = firstMatch length anchored places text := by
  induction text with
  | nil => rfl
  | cons c rest ih =>
      rw [withSlashes_cons, firstMatch, ih, ← withSlashes_cons, matchAt_withSlashes hp, firstMatch]

end

/-- A search finds the same spans in texts that are equal up to their separators. -/
theorem find?_eq_of_ignoresSpelling {regex : Regex}
    (hp : ∀ place ∈ regex.places, place.IgnoresSpelling) {left right : Text}
    (he : EqUpToSeparators left right)
    : regex.find? left = regex.find? right := by
  have slashes (text : Text) : regex.find? (withSlashes text) = regex.find? text := by
    rw [find?_eq_firstMatch, find?_eq_firstMatch, byteLength_withSlashes,
      firstMatch_withSlashes hp]
  rw [← slashes left, withSlashes_eq_iff.mpr he, slashes right]

end Regex

-----------------------------------------------------------------------------------------
-- The items of an expression
-----------------------------------------------------------------------------------------

namespace Item

theorem ignoresSpelling_separatorSet : separatorSet.IgnoresSpelling := by
  intro c
  rw [contains_separatorSet, contains_separatorSet, isSeparator_slashed]

theorem ignoresSpelling_wildcardSet (isDotless : Bool)
    : (wildcardSet isDotless).IgnoresSpelling := by
  intro c
  rw [contains_wildcardSet, contains_wildcardSet, admits, admits, isSeparator_slashed]
  cases hc : isSeparator c with
  | true => rfl
  | false => rw [slashed_of_not_separator hc]

theorem ignoresSpelling_only {c : Char} (hc : isSeparator c = false)
    : (CharSet.only c).IgnoresSpelling := by
  intro d
  cases hd : isSeparator d with
  | false => rw [slashed_of_not_separator hd]
  | true =>
      have other {e : Char} (he : isSeparator e = true) : (c == e) = false := by
        rw [beq_eq_false_iff_ne]
        rintro rfl
        rw [hc] at he
        cases he
      rw [CharSet.contains, CharSet.contains, other hd, other (isSeparator_slashed d ▸ hd)]

/-- No term of an item tells the separators apart, unless it is one of them itself. -/
theorem ignoresSpelling_term {item : Item}
    (h : ∀ c, item = .literal c → isSeparator c = false)
    : item.term.IgnoresSpelling := by
  cases item with
  | literal c => exact ignoresSpelling_only (h c rfl)
  | separator => exact ignoresSpelling_separatorSet
  | one isDotless | many isDotless => exact ignoresSpelling_wildcardSet isDotless
  | globstar => exact ⟨ignoresSpelling_wildcardSet false, ignoresSpelling_separatorSet⟩

theorem mem_of_literal_mem_ofLiteral {c : Char} {text : Text} (hm : literal c ∈ ofLiteral text)
    : c ∈ text := by
  simpa [ofLiteral] using hm

/-- Literal items of a text are its characters, by induction on the text. -/
theorem mem_of_literal_mem_scan {isDotless : Bool} {c : Char} {text : Text}
    (hm : literal c ∈ scan isDotless text)
    : c ∈ text := by
  fun_induction scan isDotless text with
  | case1 => cases hm
  | case2 rest hs ih => exact List.mem_cons_of_mem _ (ih hm)
  | case3 rest hs ih | case4 rest hd ih =>
      simp only [List.mem_cons, reduceCtorEq, false_or] at hm
      exact List.mem_cons_of_mem _ (ih hm)
  | case5 d rest hd hq ih =>
      rcases List.mem_cons.mp hm with he | hm
      · cases he
        exact List.mem_cons_self
      · exact List.mem_cons_of_mem _ (ih hm)

end Item

theorem Text.mem_of_mem_withoutDot {c : Char} {text : Text} (hm : c ∈ text.withoutDot)
    : c ∈ text := by
  rw [withoutDot] at hm
  split at hm
  next => exact List.dropLast_subset _ hm
  next => exact hm

/-- A literal item stands for a character of a component, which no separator is. -/
theorem Segment.isSeparator_of_literal_mem {segment : Segment} (h : segment.HasShape)
    {trailing : TrailingDot} {c : Char} (hm : .literal c ∈ segment.items trailing)
    : isSeparator c = false := by
  unfold Segment.HasShape at h
  unfold Segment.items at hm
  cases hk : segment.kind with
  | pathSeparator | globstar =>
      simp only [hk, List.mem_singleton, reduceCtorEq] at hm
  | wildcard =>
      simp only [hk, Item.ofWildcard_eq_scan] at h hm
      split at hm
      next => exact h c (Text.mem_of_mem_withoutDot (Item.mem_of_literal_mem_scan hm))
      next => exact h c (Item.mem_of_literal_mem_scan hm)
  | plain =>
      simp only [hk] at h hm
      split at hm
      next => exact h c (Text.mem_of_mem_withoutDot (Item.mem_of_literal_mem_ofLiteral hm))
      next => exact h c (Item.mem_of_literal_mem_ofLiteral hm)

/-- No item of an expression tells the separators apart. -/
theorem ignoresSpelling_of_mem_parts {options : Options} {expression : Text} {item : Item}
    (hm : item ∈ (parts options expression).flatMap Part.items)
    : item.term.IgnoresSpelling := by
  obtain ⟨part, hp, hm⟩ := List.mem_flatMap.mp hm
  obtain ⟨segment, hs, rfl⟩ := List.mem_map.mp hp
  refine Item.ignoresSpelling_term fun c he => ?_
  subst he
  exact Segment.isSeparator_of_literal_mem (hasShape_of_mem_segments hs) hm

-----------------------------------------------------------------------------------------
-- Matches in paths that differ in their separators alone
-----------------------------------------------------------------------------------------

/-- A span that covers a slice of a text covers one of every text that is equal to it up to its
separators, as the slices are.
-/
theorem Text.exists_slice?_eq {left right : Text} (he : EqUpToSeparators left right)
    {span : Span} {first : Text} (hs : slice? span left = some first)
    : ∃ second, slice? span right = some second ∧ EqUpToSeparators first second := by
  obtain ⟨before, after, rfl, hb, hl⟩ := slice?_eq_some_iff.mp hs
  -- The other text is cut at the end of the span first, and what is in front of that at its start.
  obtain ⟨front, rear, rfl, hf, -⟩ := he.exists_eq_append
  have stops := hf.byteLength_eq
  obtain ⟨others, second, rfl, ho, hi⟩ := hf.exists_eq_append
  have starts := ho.byteLength_eq
  refine ⟨second, slice?_eq_some_iff.mpr ⟨others, rear, rfl, ?_, ?_⟩, hi⟩
  · rw [← starts, hb]
  · rw [← stops, hl]

/-- The matcher finds the same spans in both texts, or nothing in either. If it finds any, it
captures a stem in both of them, and the stems are equal up to their separators.
-/
structure Matcher.AgreesOn (matcher : Matcher) (left right : Text) : Prop where
  spans : matcher.find? left = matcher.find? right
  stems : ∀ found,
    matcher.find? left = some found
    → ∃ first second,
        matcher.stem? left = some first
        ∧ matcher.stem? right = some second
        ∧ EqUpToSeparators first second

/-- Items that do not tell the separators apart are found at the same places. -/
theorem Matcher.agreesOn_ofItems {anchored : Bool} {lead stem : List Item}
    (hi : ∀ item ∈ lead ++ stem, item.term.IgnoresSpelling) {left right : Text}
    (he : EqUpToSeparators left right)
    : AgreesOn { regex := Regex.ofItems anchored lead stem } left right := by
  have blind (place : Regex.Place) (hp : place ∈ (Regex.ofItems anchored lead stem).places)
      : place.IgnoresSpelling := by
    simp only [Regex.places, Regex.ofItems, List.mem_append, List.mem_cons, List.mem_map,
      exists_exists_and_eq_and] at hp
    rcases hp with ⟨item, hm, rfl⟩ | rfl | ⟨item, hm, rfl⟩
    · exact hi item (List.mem_append_left _ hm)
    · trivial
    · exact hi item (List.mem_append_right _ hm)
  have spans := Regex.find?_eq_of_ignoresSpelling blind he
  refine ⟨spans, fun found hf => ?_⟩
  obtain ⟨choice, -, rfl⟩ := Choice.find?_eq_some_iff.mp hf
  obtain ⟨second, hs, hc⟩ := Text.exists_slice?_eq he choice.slice?_inside
  refine ⟨choice.inside, second, ?_, ?_, hc⟩
  · rw [stem?, hf]
    exact choice.slice?_inside
  · rw [stem?, find?, ← spans, ← find?, hf]
    exact hs

namespace Glob

/-- Matching ignores how separators are written. In paths that differ in nothing else, the matcher
of whole paths finds the same spans, as does that of the stem, and what they capture differs in
nothing else.
-/
theorem matchers_ignore_spelling {options : Options} {expression : Text} {full stem : Matcher}
    (hf : (compile options expression).matcher = .ok full)
    (hs : (compile options expression).stemMatcher = .ok stem) {left right : Text}
    (he : EqUpToSeparators left right)
    : full.AgreesOn left right ∧ stem.AgreesOn left right := by
  obtain ⟨-, rfl⟩ := matcher_eq_ok_iff.mp hf
  obtain ⟨-, rfl⟩ := stemMatcher_eq_ok_iff.mp hs
  have blind (item : Item)
      (hm : item ∈ leadReading options expression ++ stemReading options expression)
      : item.term.IgnoresSpelling := by
    rw [leadReading_append_stemReading] at hm
    exact ignoresSpelling_of_mem_parts hm
  refine ⟨Matcher.agreesOn_ofItems blind he, Matcher.agreesOn_ofItems ?_ he⟩
  intro item hm
  exact blind item (List.mem_append_right _ hm)

/-- Both separators in a path that a globstar and a wildcard without dots take. -/
theorem matchers_ignore_spelling_mixed
    : ∃ full stem,
        (compile {} ['a', '/', '*', '*', '/', 'b', '*', '.']).matcher = .ok full
        ∧ (compile {} ['a', '/', '*', '*', '/', 'b', '*', '.']).stemMatcher = .ok stem
        ∧ EqUpToSeparators ['a', '/', 'c', '\\', 'b', 'd'] ['a', '\\', 'c', '/', 'b', 'd']
        ∧ full.stem? ['a', '/', 'c', '\\', 'b', 'd'] = some ['c', '\\', 'b', 'd']
        ∧ full.AgreesOn ['a', '/', 'c', '\\', 'b', 'd'] ['a', '\\', 'c', '/', 'b', 'd']
        ∧ stem.AgreesOn ['a', '/', 'c', '\\', 'b', 'd'] ['a', '\\', 'c', '/', 'b', 'd'] := by
  have full := (@matcher_eq_ok_iff {} ['a', '/', '*', '*', '/', 'b', '*', '.'] _).mpr
    ⟨by decide, rfl⟩
  have stem := (@stemMatcher_eq_ok_iff {} ['a', '/', '*', '*', '/', 'b', '*', '.'] _).mpr
    ⟨by decide, rfl⟩
  have he : EqUpToSeparators ['a', '/', 'c', '\\', 'b', 'd'] ['a', '\\', 'c', '/', 'b', 'd'] := by
    decide
  obtain ⟨whole, rest⟩ := matchers_ignore_spelling full stem he
  exact ⟨_, _, full, stem, he, by decide, whole, rest⟩

end Glob

end PathGlob
