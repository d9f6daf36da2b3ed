import PathGlob.Proofs.Matching.BaseSpelling

/-! The full pattern of a glob as its base path and the pattern of its stem. A choice of all items
is one of the stem's items behind what the base path spells, and preference carries over.
-/

namespace PathGlob

namespace Choice

section
variable {anchored : Bool} {lead stem : List Item} {base path : Text}

-----------------------------------------------------------------------------------------
-- The base of a choice
-----------------------------------------------------------------------------------------

theorem byteLength_base (choice : Choice anchored lead stem path) (hs : Spells lead base)
    : Text.byteLength choice.base = Text.byteLength base := by
  have spelled := ((hs _ _).mp choice.consumes_base).2
  rw [← byteLength_withSlashes, spelled, byteLength_withSlashes]

/-- The group of a choice begins where its base ends. -/
theorem toMatch_stem (choice : Choice anchored lead stem path) (hs : Spells lead base)
    : choice.toMatch.stem
      = {
          start := choice.toMatch.span.start + Text.byteLength base
          stop := choice.toMatch.span.stop
        } := by
  simp only [toMatch, Text.byteLength_append, choice.byteLength_base hs]

theorem slice?_base (choice : Choice anchored lead stem path)
    : Text.slice? { choice.toMatch.span with stop := choice.toMatch.stem.start } path
      = some choice.base := by
  apply Text.slice?_eq_some_iff.mpr
  exact ⟨choice.before, choice.inside ++ choice.after, by simpa using choice.path_eq, rfl, rfl⟩

theorem slice?_inside (choice : Choice anchored lead stem path)
    : Text.slice? choice.toMatch.stem path = some choice.inside := by
  apply Text.slice?_eq_some_iff.mpr
  exact ⟨choice.before ++ choice.base, choice.after, by simpa using choice.path_eq, rfl, rfl⟩

/-- Nothing in front of the group leaves nothing to consume there. -/
theorem base_eq_nil (choice : Choice anchored [] stem path)
    : choice.leadCounts = [] ∧ choice.base = [] := by
  have h := choice.consumes_base
  generalize choice.leadCounts = counts at h
  generalize choice.base = base at h
  cases h
  exact ⟨rfl, rfl⟩

-----------------------------------------------------------------------------------------
-- Choices of anchored items
-----------------------------------------------------------------------------------------

/-- The group of an anchored choice is what follows the spelled base in the path. -/
theorem inside_eq (choice : Choice true lead stem path) (hs : Spells lead base)
    {head tail : Text} (hp : path = head ++ tail) (hh : withSlashes head = withSlashes base)
    : choice.inside = tail := by
  obtain ⟨hb, ha⟩ := choice.anchored_eq rfl
  have cut : choice.base ++ choice.inside = head ++ tail := by
    have whole := choice.path_eq
    rw [hb, ha, List.append_nil, List.nil_append] at whole
    exact whole.symm.trans hp
  have lengths : Text.byteLength choice.base = Text.byteLength head := by
    rw [choice.byteLength_base hs, ← byteLength_withSlashes head, hh, byteLength_withSlashes]
  exact (Text.append_inj_of_byteLength_eq cut lengths).2

-----------------------------------------------------------------------------------------
-- Choices of items that are not anchored
-----------------------------------------------------------------------------------------

/-- The choice of the stem's items that a choice of all items holds. -/
def ofStem (choice : Choice false lead stem path) : Choice false [] stem path where
  before := choice.before ++ choice.base
  base := []
  inside := choice.inside
  after := choice.after
  leadCounts := []
  stemCounts := choice.stemCounts
  path_eq := by simpa using choice.path_eq
  anchored_eq := nofun
  consumes_base := .nil
  consumes_inside := choice.consumes_inside

/-- The choice with its group as another choice of the stem's items has it. -/
def withStem (choice : Choice false lead stem path) (other : Choice false [] stem path)
    (h : other.before = choice.before ++ choice.base)
    : Choice false lead stem path where
  before := choice.before
  base := choice.base
  inside := other.inside
  after := other.after
  leadCounts := choice.leadCounts
  stemCounts := other.stemCounts
  path_eq := by simpa [h, other.base_eq_nil.2] using other.path_eq
  anchored_eq := nofun
  consumes_base := choice.consumes_base
  consumes_inside := other.consumes_inside

/-- If the preferred choice of the stem's items begins where the group of the preferred choice
of all items does, neither has greater counts than the other, so both end together.
-/
theorem stop_eq_of_start_eq {choice : Choice false lead stem path}
    {other : Choice false [] stem path} (hs : Spells lead base) (hc : choice.IsPreferred)
    (ho : other.IsPreferred)
    (h : other.toMatch.span.start = choice.toMatch.span.start + Text.byteLength base)
    : other.toMatch.span.stop = choice.toMatch.span.stop := by
  have nothing := ((hs _ _).mp choice.consumes_base).1
  have cut : other.before ++ other.rest
      = (choice.before ++ choice.base) ++ (choice.inside ++ choice.after) := by
    rw [← other.path_eq_before_append_rest]
    simpa using choice.path_eq
  have bytes : Text.byteLength other.before = Text.byteLength (choice.before ++ choice.base) := by
    rw [Text.byteLength_append, choice.byteLength_base hs]
    exact h
  have before := (Text.append_inj_of_byteLength_eq cut bytes).1
  have fewer : other.stemCounts = choice.stemCounts
      ∨ CountsLess other.stemCounts choice.stemCounts := by
    simpa [counts, withStem, nothing] using (hc (choice.withStem other before)).2 rfl
  have more : choice.stemCounts = other.stemCounts
      ∨ CountsLess choice.stemCounts other.stemCounts := by
    simpa [counts, ofStem, other.base_eq_nil.1] using (ho choice.ofStem).2 bytes.symm
  have same : choice.ofStem.toMatch = other.toMatch := by
    apply toMatch_eq_of_counts_eq before.symm
    simp only [counts, ofStem, other.base_eq_nil.1, CountsLess.antisymm more fewer]
  rw [← same]
  simp [toMatch, ofStem]

end

end Choice

-----------------------------------------------------------------------------------------
-- Searches for all items and for those of the stem
-----------------------------------------------------------------------------------------

section
variable {anchored : Bool} {lead stem : List Item} {base path : Text}

theorem Spells.accepts_iff {items : List Item} {text : Text} (hs : Spells items base)
    : Accepts items text ↔ withSlashes text = withSlashes base := by
  simp only [Accepts, hs _ _, exists_eq_left]

namespace Regex

/-- The group of a match begins behind what spells the base. -/
theorem stem_of_find? (hs : Spells lead base) {found : Match}
    (h : (ofItems anchored lead stem).find? path = some found)
    : found.stem
        = { start := found.span.start + Text.byteLength base, stop := found.span.stop }
      ∧ ∃ head,
          Text.slice? { found.span with stop := found.stem.start } path = some head
          ∧ withSlashes head = withSlashes base := by
  obtain ⟨choice, -, rfl⟩ := Choice.find?_eq_some_iff.mp h
  have spelled := ((hs _ _).mp choice.consumes_base).2
  exact ⟨choice.toMatch_stem hs, choice.base, choice.slice?_base, spelled⟩

/-- A whole path matches if it spells the base and goes on as the stem's items accept. -/
theorem find?_anchored_isSome_iff (hs : Spells lead base)
    : ((ofItems true lead stem).find? path).isSome = true
      ↔ ∃ head tail,
          path = head ++ tail
          ∧ withSlashes head = withSlashes base
          ∧ ((ofItems true [] stem).find? tail).isSome = true := by
  simp only [Choice.find?_isSome_iff, nonempty_choice_iff_accepts rfl, accepts_append_iff,
    hs.accepts_iff, List.nil_append]

/-- A search for the stem's items finds them no later than a search for all items does, and as
far if it finds them in the same place.
-/
theorem find?_stem_of_find? (hs : Spells lead base) {found : Match}
    (h : (ofItems false lead stem).find? path = some found)
    : ∃ inner,
        (ofItems false [] stem).find? path = some inner
        ∧ inner.span.start ≤ found.span.start + Text.byteLength base
        ∧ (inner.span.start = found.span.start + Text.byteLength base
          → inner.span.stop = found.span.stop) := by
  obtain ⟨choice, hc, rfl⟩ := Choice.find?_eq_some_iff.mp h
  obtain ⟨inner, hi⟩ := Option.isSome_iff_exists.mp (Choice.find?_isSome_iff.mpr ⟨choice.ofStem⟩)
  obtain ⟨other, ho, rfl⟩ := Choice.find?_eq_some_iff.mp hi
  refine ⟨_, hi, ?_, Choice.stop_eq_of_start_eq hs hc ho⟩
  have earlier := (ho choice.ofStem).1
  have start : choice.ofStem.toMatch.span.start = choice.toMatch.stem.start := rfl
  rwa [start, choice.toMatch_stem hs] at earlier

end Regex

/-- The stem of an anchored match is what follows the spelled base. -/
theorem Matcher.stem?_anchored (hs : Spells lead base) {head tail : Text}
    (hh : withSlashes head = withSlashes base)
    (ht : ((Regex.ofItems true [] stem).find? tail).isSome = true)
    : Matcher.stem? { regex := Regex.ofItems true lead stem } (head ++ tail) = some tail := by
  have matched : ((Regex.ofItems true lead stem).find? (head ++ tail)).isSome = true :=
    (Regex.find?_anchored_isSome_iff hs).mpr ⟨head, tail, rfl, hh, ht⟩
  obtain ⟨found, hf⟩ := Option.isSome_iff_exists.mp matched
  obtain ⟨choice, -, rfl⟩ := Choice.find?_eq_some_iff.mp hf
  rw [Matcher.stem?, Matcher.find?, hf]
  exact choice.slice?_inside.trans (congrArg some (choice.inside_eq hs rfl hh))

end

namespace Glob

/-- The full pattern of a glob is its base path, with separators written in any way, in front
of the pattern of its stem. The group of a match is what the stem's pattern takes, and both
patterns take the same there.
-/
theorem compile_factors {options : Options} {expression : Text} {full stem : Matcher}
    (hf : (compile options expression).matcher = .ok full)
    (hs : (compile options expression).stemMatcher = .ok stem) (path : Text)
    : let base := (compile options expression).basePath
      (∀ found,
        full.find? path = some found
        → found.stem
            = { start := found.span.start + Text.byteLength base, stop := found.span.stop }
          ∧ ∃ head,
              Text.slice? { found.span with stop := found.stem.start } path = some head
              ∧ withSlashes head = withSlashes base)
      ∧ (options.anchored = true
        → (full.isMatch path = true
            ↔ ∃ head tail,
                path = head ++ tail
                ∧ withSlashes head = withSlashes base
                ∧ stem.isMatch tail = true)
          ∧ ∀ head tail,
              path = head ++ tail
              → withSlashes head = withSlashes base
              → stem.isMatch tail = true
              → full.stem? path = some tail)
      ∧ (options.anchored = false
        → ∀ found,
            full.find? path = some found
            → ∃ inner,
                stem.find? path = some inner
                ∧ inner.span.start ≤ found.span.start + Text.byteLength base
                ∧ (inner.span.start = found.span.start + Text.byteLength base
                  → inner.span.stop = found.span.stop))
      ∧ ∀ inner, stem.find? path = some inner → inner.stem = inner.span := by
  intro base
  obtain ⟨-, rfl⟩ := matcher_eq_ok_iff.mp hf
  obtain ⟨-, rfl⟩ := stemMatcher_eq_ok_iff.mp hs
  have spelled : Spells (leadReading options expression) base :=
    spells_basePath options expression
  refine ⟨fun found h => Regex.stem_of_find? spelled h, ?_, ?_, ?_⟩
  · intro ha
    rw [ha]
    refine ⟨Regex.find?_anchored_isSome_iff spelled, ?_⟩
    intro head tail hp hh ht
    rw [hp]
    exact Matcher.stem?_anchored spelled hh ht
  · intro ha found h
    rw [ha] at h ⊢
    exact Regex.find?_stem_of_find? spelled h
  · intro inner h
    exact (Regex.stem_of_find? spells_nil h).1

/-- A wildcard behind a base path that the path writes with the other separator. -/
theorem stem_behind_other_separator
    : ∃ full stem,
        (compile {} ['a', '/', 'b', '*']).matcher = .ok full
        ∧ (compile {} ['a', '/', 'b', '*']).stemMatcher = .ok stem
        ∧ full.stem? ['a', '\\', 'b', 'c'] = some ['b', 'c'] := by
  have full := (@matcher_eq_ok_iff {} ['a', '/', 'b', '*'] _).mpr ⟨by decide, rfl⟩
  have stem := (@stemMatcher_eq_ok_iff {} ['a', '/', 'b', '*'] _).mpr ⟨by decide, rfl⟩
  obtain ⟨-, anchored, -, -⟩ := compile_factors full stem ['a', '\\', 'b', 'c']
  have found := (anchored rfl).2 ['a', '\\'] ['b', 'c'] rfl (by decide) (by decide)
  exact ⟨_, _, full, stem, found⟩

end Glob

end PathGlob
