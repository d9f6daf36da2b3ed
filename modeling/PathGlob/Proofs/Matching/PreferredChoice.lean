import PathGlob.Proofs.Matching.ItemOutcome

/-! A match of items is a choice of what each of them consumes in a path. The search finds the
preferred choice: the one that begins first and, of those, the one with the greatest counts.
-/

namespace PathGlob

/-- A slice of a path that items consume: those of the lead consume its base, and those of the
stem what is inside the group. Anchored items consume the whole path.
-/
structure Choice (anchored : Bool) (lead stem : List Item) (path : Text) where
  before : Text
  base : Text
  inside : Text
  after : Text
  leadCounts : List Nat
  stemCounts : List Nat
  path_eq : path = before ++ (base ++ (inside ++ after))
  anchored_eq : anchored = true → before = [] ∧ after = []
  consumes_base : Consumes lead leadCounts base
  consumes_inside : Consumes stem stemCounts inside

namespace Choice

variable {anchored : Bool} {lead stem : List Item} {path : Text}

/-- The counts of all items that repeat, from left to right. -/
def counts (choice : Choice anchored lead stem path) : List Nat :=
  choice.leadCounts ++ choice.stemCounts

/-- The spans of the slice and of the group within it. -/
def toMatch (choice : Choice anchored lead stem path) : Regex.Match where
  span := {
    start := Text.byteLength choice.before
    stop := Text.byteLength (choice.before ++ choice.base ++ choice.inside)
  }
  stem := {
    start := Text.byteLength (choice.before ++ choice.base)
    stop := Text.byteLength (choice.before ++ choice.base ++ choice.inside)
  }

/-- No choice begins before this one, and none that begins with it has greater counts, in the
order of vectors that compares the first counts that differ.
-/
def IsPreferred (choice : Choice anchored lead stem path) : Prop :=
  ∀ other : Choice anchored lead stem path,
    choice.toMatch.span.start ≤ other.toMatch.span.start
    ∧ (other.toMatch.span.start = choice.toMatch.span.start
      → other.counts = choice.counts ∨ CountsLess other.counts choice.counts)

end Choice

namespace Regex

/-- The regular expression of items, of which those of the lead come before the group. -/
def ofItems (anchored : Bool) (lead stem : List Item) : Regex where
  anchored
  lead := lead.map Item.term
  stem := stem.map Item.term

-----------------------------------------------------------------------------------------
-- The first offset at which a search finds a match
-----------------------------------------------------------------------------------------

/-- A match begins at some rest of the text, and no match begins at any longer one. -/
def IsFirstMatch (length : Nat) (anchored : Bool) (places : List Place) (text : Text)
    (found : Match)
    : Prop :=
  ∃ before rest,
    text = before ++ rest
    ∧ matchAt length anchored places rest = some found
    ∧ ∀ earlier longer,
        text = earlier ++ longer
        → earlier.length < before.length
        → matchAt length anchored places longer = none

section
variable {length : Nat} {anchored : Bool} {places : List Place} {found : Match}

/-- A match at the text itself is the first one. -/
theorem isFirstMatch_iff_of_some {text : Text} {here : Match}
    (hm : matchAt length anchored places text = some here)
    : IsFirstMatch length anchored places text found ↔ here = found := by
  constructor
  · intro h
    obtain ⟨before, rest, rfl, hf, hn⟩ := h
    cases before with
    | nil => exact Option.some.inj (hm.symm.trans hf)
    | cons c before =>
        have none_here := hn [] (c :: before ++ rest) rfl (Nat.succ_pos _)
        rw [hm] at none_here
        cases none_here
  · intro h
    subst h
    refine ⟨[], text, rfl, hm, ?_⟩
    intro earlier longer _ hl
    exact absurd hl (Nat.not_lt_zero _)

/-- If no match begins at the text itself, the first one is that of what follows. -/
theorem isFirstMatch_cons_iff_of_none {c : Char} {text : Text}
    (hm : matchAt length anchored places (c :: text) = none)
    : IsFirstMatch length anchored places (c :: text) found
      ↔ IsFirstMatch length anchored places text found := by
  constructor
  · intro h
    obtain ⟨before, rest, he, hf, hn⟩ := h
    cases before with
    | nil =>
        obtain rfl : c :: text = rest := he
        rw [hm] at hf
        cases hf
    | cons d before =>
        refine ⟨before, rest, (List.cons.inj he).2, hf, ?_⟩
        intro earlier longer he hl
        exact hn (c :: earlier) longer (by rw [he]; rfl) (Nat.succ_lt_succ hl)
  · intro h
    obtain ⟨before, rest, rfl, hf, hn⟩ := h
    refine ⟨c :: before, rest, rfl, hf, ?_⟩
    intro earlier longer he hl
    cases earlier with
    | nil =>
        obtain rfl : c :: (before ++ rest) = longer := he
        exact hm
    | cons d earlier => exact hn earlier longer (List.cons.inj he).2 (Nat.lt_of_succ_lt_succ hl)

/-- The search for the first match finds it, by induction on the text. -/
theorem firstMatch_eq_some_iff {text : Text}
    : firstMatch length anchored places text = some found
      ↔ IsFirstMatch length anchored places text found := by
  induction text with
  | nil =>
      rw [firstMatch]
      cases hm : matchAt length anchored places [] with
      | some here => rw [isFirstMatch_iff_of_some hm, Option.some.injEq]
      | none =>
          constructor
          · intro h
            cases h
          · intro h
            obtain ⟨before, rest, he, hf, -⟩ := h
            obtain ⟨-, rfl⟩ := List.append_eq_nil_iff.mp he.symm
            rw [hm] at hf
            cases hf
  | cons c text ih =>
      rw [firstMatch]
      cases hm : matchAt length anchored places (c :: text) with
      | some here =>
          rw [isFirstMatch_iff_of_some hm]
          simp
      | none =>
          rw [isFirstMatch_cons_iff_of_none hm, ← ih]
          simp

end

theorem firstMatch_isSome {length : Nat} {anchored : Bool} {places : List Place}
    {before rest : Text} {found : Match}
    (h : matchAt length anchored places rest = some found)
    : (firstMatch length anchored places (before ++ rest)).isSome = true := by
  induction before with
  | nil => cases rest <;> simp_all [firstMatch]
  | cons c before ih =>
      rw [List.cons_append, firstMatch]
      cases matchAt length anchored places (c :: (before ++ rest)) <;> simp [ih]

-----------------------------------------------------------------------------------------
-- The choices that begin at one offset, the preferred one first
-----------------------------------------------------------------------------------------

end Regex

/-- A way through lead and stem: the counts of either, what is left where the group begins,
and what is left after it.
-/
structure Way where
  leadCounts : List Nat
  stemCounts : List Nat
  group : Text
  rest : Text

/-- The counts of all items that repeat, from left to right. -/
def Way.counts (way : Way) : List Nat :=
  way.leadCounts ++ way.stemCounts

/-- The ways through lead and stem from a rest of a path, preferred ones first. -/
def ways (lead stem : List Item) (rest : Text) : List Way :=
  (splits lead rest).flatMap fun base =>
    (splits stem base.2).map fun inside =>
      { leadCounts := base.1, stemCounts := inside.1, group := base.2, rest := inside.2 }

theorem mem_ways {lead stem : List Item} {text : Text} {way : Way}
    : way ∈ ways lead stem text
      ↔ ∃ base inside,
          text = base ++ (inside ++ way.rest)
          ∧ way.group = inside ++ way.rest
          ∧ Consumes lead way.leadCounts base
          ∧ Consumes stem way.stemCounts inside := by
  obtain ⟨leadCounts, stemCounts, group, rest⟩ := way
  simp only [ways, List.mem_flatMap, List.mem_map, Prod.exists, Way.mk.injEq]
  constructor
  · intro h
    obtain ⟨_, _, hl, _, _, hs, rfl, rfl, rfl, rfl⟩ := h
    obtain ⟨base, hb, rfl⟩ := mem_splits.mp hl
    obtain ⟨inside, hi, rfl⟩ := mem_splits.mp hs
    exact ⟨base, inside, rfl, rfl, hb, hi⟩
  · intro h
    obtain ⟨base, inside, rfl, rfl, hb, hi⟩ := h
    exact ⟨leadCounts, inside ++ rest, mem_splits.mpr ⟨base, hb, rfl⟩, stemCounts, rest,
      mem_splits.mpr ⟨inside, hi, rfl⟩, rfl, rfl, rfl, rfl⟩

/-- Earlier ways have greater counts, since ways are splits of all items in order. -/
theorem sorted_ways (lead stem : List Item) (text : Text)
    : (ways lead stem text).Pairwise fun earlier later =>
        CountsLess later.counts earlier.counts := by
  have sorted := sorted_splits (lead ++ stem) text
  have same : splits (lead ++ stem) text
      = (ways lead stem text).map fun way => (way.counts, way.rest) := by
    simp [splits_append, ways, List.map_flatMap, Function.comp_def, Way.counts]
  rw [same] at sorted
  exact List.pairwise_map.mp sorted

namespace Regex

/-- The outcome of a way: where the group begins and where the match stops, unless the match
has to reach the end of the text and does not.
-/
def outcomeOfWay (length : Nat) (anchored : Bool) (way : Way) : Option Outcome :=
  if anchored && !way.rest.isEmpty then
    none
  else
    some
      {
        stemStart := length - Text.byteLength way.group
        stop := length - Text.byteLength way.rest
      }

/-- The outcome of all places is that of the first way with one. -/
theorem outcomeOf_ofItems (length : Nat) (anchored : Bool) (lead stem : List Item) (text : Text)
    : outcomeOf length anchored (ofItems anchored lead stem).places text
      = (ways lead stem text).findSome? (outcomeOfWay length anchored) := by
  have places : (ofItems anchored lead stem).places
      = lead.map (fun item => .term item.term)
        ++ .stemStart :: (stem.map (fun item => .term item.term) ++ []) := by
    simp [Regex.places, ofItems, Function.comp_def]
  have group (rest : Text)
      : outcomeOf length anchored
            (.stemStart :: (stem.map (fun item => .term item.term) ++ [])) rest
        = ((splits stem rest).findSome? (outcomeAfter length anchored [])).map fun outcome =>
            { outcome with stemStart := length - Text.byteLength rest } := by
    rw [← outcomeOf_items]
    cases rest <;> simp [outcomeOf, Place.slotBefore, Slot.retreat]
  rw [places, outcomeOf_items, ways, findSome?_flatMap]
  congr
  funext base
  rw [outcomeAfter, group, List.map_findSome?, List.findSome?_map]
  congr 1
  funext inside
  simp only [Function.comp_apply, outcomeAfter, outcomeOf, outcomeOfWay]
  split <;> rfl

end Regex

namespace Choice

section
variable {anchored : Bool} {lead stem : List Item} {path : Text}

/-- The way that a choice takes from its first offset. -/
def way (choice : Choice anchored lead stem path) : Way where
  leadCounts := choice.leadCounts
  stemCounts := choice.stemCounts
  group := choice.inside ++ choice.after
  rest := choice.after

/-- What is left of the path where the choice begins. -/
def rest (choice : Choice anchored lead stem path) : Text :=
  choice.base ++ (choice.inside ++ choice.after)

theorem way_mem (choice : Choice anchored lead stem path)
    : choice.way ∈ ways lead stem choice.rest :=
  mem_ways.mpr
    ⟨choice.base, choice.inside, rfl, rfl, choice.consumes_base, choice.consumes_inside⟩

/-- The search sees the match of a choice as the outcome of its way. -/
theorem outcomeOfWay_way (choice : Choice anchored lead stem path)
    : (Regex.outcomeOfWay (Text.byteLength path) anchored choice.way).map
          (Regex.Outcome.toMatch (Text.byteLength choice.before))
        = some choice.toMatch := by
  have reach : ¬(anchored && !choice.way.rest.isEmpty) = true := by
    intro h
    rw [Bool.and_eq_true] at h
    simp [way, (choice.anchored_eq h.1).2] at h
  have whole := congrArg Text.byteLength choice.path_eq
  simp only [Text.byteLength_append] at whole
  rw [Regex.outcomeOfWay, if_neg reach]
  simp only [Option.map_some, way, Regex.Outcome.toMatch, toMatch, Text.byteLength_append,
    Option.some.injEq, Regex.Match.mk.injEq, Span.mk.injEq, whole]
  refine ⟨⟨trivial, ?_⟩, ?_, ?_⟩ <;> omega

/-- A way that may end where it does is that of a choice. -/
theorem exists_way_eq {before text : Text} {way : Way} (hp : path = before ++ text)
    (hw : way ∈ ways lead stem text) (ha : anchored = true → before = [] ∧ way.rest = [])
    : ∃ choice : Choice anchored lead stem path, choice.before = before ∧ choice.way = way := by
  obtain ⟨leadCounts, stemCounts, group, after⟩ := way
  obtain ⟨base, inside, ht, hg, hb, hi⟩ := mem_ways.mp hw
  dsimp only at ht hg ha hb hi
  subst ht hg
  exact ⟨⟨before, base, inside, after, leadCounts, stemCounts, hp, ha, hb, hi⟩, rfl, rfl⟩

/-- Choices that begin together with the same counts have the same match, since no two ways
from one rest have the same counts.
-/
theorem toMatch_eq_of_counts_eq {choice other : Choice anchored lead stem path}
    (hb : choice.before = other.before) (hc : choice.counts = other.counts)
    : choice.toMatch = other.toMatch := by
  have hr : choice.rest = other.rest := by
    have he := choice.path_eq.symm.trans other.path_eq
    rw [hb] at he
    exact List.append_cancel_left he
  have sorted := sorted_ways lead stem choice.rest
  have hw : choice.way = other.way := by
    refine List.Pairwise.forall_of_forall_of_flip
      (R := fun left right : Way => left.counts = right.counts → left = right)
      ?_ ?_ ?_ choice.way_mem (hr ▸ other.way_mem) hc
    · intro way _ _
      rfl
    · exact sorted.imp fun hl he => absurd (he ▸ hl) (CountsLess.irrefl _)
    · exact sorted.imp fun hl he => absurd (he ▸ hl) (CountsLess.irrefl _)
  have hm := choice.outcomeOfWay_way
  rw [hw, hb, other.outcomeOfWay_way] at hm
  exact (Option.some.inj hm).symm

/-- A match begins wherever a choice does. -/
theorem exists_matchAt (choice : Choice anchored lead stem path)
    : ∃ found,
        Regex.matchAt (Text.byteLength path) anchored
            (Regex.ofItems anchored lead stem).places choice.rest
          = some found := by
  have offset : Text.byteLength path - Text.byteLength choice.rest
      = Text.byteLength choice.before := by
    have whole := congrArg Text.byteLength choice.path_eq
    rw [Text.byteLength_append] at whole
    rw [whole, rest, Nat.add_sub_cancel]
  have start : ¬(anchored && Text.byteLength choice.before != 0) = true := by
    intro h
    rw [Bool.and_eq_true] at h
    simp [(choice.anchored_eq h.1).1] at h
  obtain ⟨outcome, ho, -⟩ := Option.map_eq_some_iff.mp choice.outcomeOfWay_way
  have some_outcome : ((ways lead stem choice.rest).findSome?
      (Regex.outcomeOfWay (Text.byteLength path) anchored)).isSome = true :=
    List.findSome?_isSome_iff.mpr ⟨choice.way, choice.way_mem, by rw [ho]; rfl⟩
  obtain ⟨first, hf⟩ := Option.isSome_iff_exists.mp some_outcome
  refine ⟨first.toMatch (Text.byteLength choice.before), ?_⟩
  rw [Regex.matchAt, offset, if_neg start, Regex.outcomeOf_ofItems, hf]
  rfl

theorem rest_eq_of_before_eq (choice : Choice anchored lead stem path) {text : Text}
    (hp : path = choice.before ++ text)
    : choice.rest = text :=
  List.append_cancel_left (choice.path_eq.symm.trans hp)

/-- No choice that begins where this one does has greater counts. -/
def IsGreatest (choice : Choice anchored lead stem path) : Prop :=
  ∀ other : Choice anchored lead stem path,
    other.before = choice.before
    → other.counts = choice.counts ∨ CountsLess other.counts choice.counts

/-- The first way with an outcome is that of a choice with the greatest counts: ways before it
are of no choice, and those after it have smaller counts.
-/
theorem exists_isGreatest_of_findSome? {before text : Text} {outcome : Regex.Outcome}
    (hp : path = before ++ text) (ha : anchored = true → before = [])
    (h : (ways lead stem text).findSome? (Regex.outcomeOfWay (Text.byteLength path) anchored)
      = some outcome)
    : ∃ choice : Choice anchored lead stem path,
        choice.before = before
        ∧ choice.IsGreatest
        ∧ choice.toMatch = outcome.toMatch (Text.byteLength before) := by
  obtain ⟨earlier, way, later, hw, hs, hn⟩ := List.findSome?_eq_some_iff.mp h
  have hm : way ∈ ways lead stem text := by simp [hw]
  have reach : anchored = true → before = [] ∧ way.rest = [] := by
    intro he
    simp_all [Regex.outcomeOfWay]
  obtain ⟨choice, rfl, rfl⟩ := exists_way_eq hp hm reach
  refine ⟨choice, rfl, ?_, ?_⟩
  · intro other ho
    have same : other.rest = text := other.rest_eq_of_before_eq (by rw [ho]; exact hp)
    have member : other.way ∈ earlier ++ choice.way :: later := by
      rw [← hw, ← same]
      exact other.way_mem
    have sorted := sorted_ways lead stem text
    rw [hw] at sorted
    rcases List.mem_append.mp member with he | hl
    · have nothing := other.outcomeOfWay_way
      rw [hn _ he] at nothing
      cases nothing
    · rcases List.mem_cons.mp hl with he | hl
      · exact Or.inl (congrArg Way.counts he)
      · exact Or.inr (List.rel_of_pairwise_cons (List.pairwise_append.mp sorted).2.1 hl)
  · have own := choice.outcomeOfWay_way
    rw [hs] at own
    exact (Option.some.inj own).symm

/-- A match that begins at an offset is that of the choice with the greatest counts there. -/
theorem matchAt_eq_some_iff {before text : Text} {found : Regex.Match}
    (hp : path = before ++ text)
    : Regex.matchAt (Text.byteLength path) anchored (Regex.ofItems anchored lead stem).places text
          = some found
      ↔ ∃ choice : Choice anchored lead stem path,
          choice.before = before ∧ choice.IsGreatest ∧ choice.toMatch = found := by
  have offset : Text.byteLength path - Text.byteLength text = Text.byteLength before := by
    rw [hp, Text.byteLength_append, Nat.add_sub_cancel]
  have greatest {found : Regex.Match}
      (h : Regex.matchAt (Text.byteLength path) anchored
          (Regex.ofItems anchored lead stem).places text = some found)
      : ∃ choice : Choice anchored lead stem path,
          choice.before = before ∧ choice.IsGreatest ∧ choice.toMatch = found := by
    rw [Regex.matchAt, offset] at h
    split at h
    · cases h
    next ha =>
      rw [Regex.outcomeOf_ofItems] at h
      obtain ⟨outcome, hf, rfl⟩ := Option.map_eq_some_iff.mp h
      exact exists_isGreatest_of_findSome? hp (by simp_all [Text.byteLength_eq_zero_iff]) hf
  constructor
  · exact greatest
  · intro h
    obtain ⟨choice, rfl, hc, rfl⟩ := h
    obtain ⟨found, hm⟩ := choice.exists_matchAt
    rw [choice.rest_eq_of_before_eq hp] at hm
    obtain ⟨other, ho, hg, rfl⟩ := greatest hm
    have he : choice.counts = other.counts := CountsLess.antisymm (hg choice ho.symm) (hc other ho)
    rw [hm, toMatch_eq_of_counts_eq ho.symm he]

theorem path_eq_before_append_rest (choice : Choice anchored lead stem path)
    : path = choice.before ++ choice.rest :=
  choice.path_eq

/-- A search finds the match of the preferred choice. -/
theorem find?_eq_some_iff {found : Regex.Match}
    : (Regex.ofItems anchored lead stem).find? path = some found
      ↔ ∃ choice : Choice anchored lead stem path,
          choice.IsPreferred ∧ choice.toMatch = found := by
  rw [Regex.find?_eq_firstMatch, Regex.firstMatch_eq_some_iff]
  constructor
  · intro h
    obtain ⟨before, rest, hp, hm, hn⟩ := h
    obtain ⟨choice, rfl, hg, rfl⟩ := (matchAt_eq_some_iff hp).mp hm
    refine ⟨choice, ?_, rfl⟩
    intro other
    have shorter : choice.before.length ≤ other.before.length := by
      refine Nat.le_of_not_lt fun hl => ?_
      obtain ⟨earlier, he⟩ := other.exists_matchAt
      have := hn other.before other.rest (other.path_eq_before_append_rest) hl
      exact Option.some_ne_none earlier (he.symm.trans this)
    rcases Nat.lt_or_eq_of_le shorter with hl | he
    · have bytes := Text.byteLength_lt_of_append_eq (choice.path_eq.symm.trans other.path_eq) hl
      exact ⟨Nat.le_of_lt bytes, fun hs => absurd hs (Nat.ne_of_gt bytes)⟩
    · have same := (List.append_inj (choice.path_eq.symm.trans other.path_eq) he).1
      exact ⟨Nat.le_of_eq (congrArg Text.byteLength same), fun _ => hg other same.symm⟩
  · intro h
    obtain ⟨choice, hf, rfl⟩ := h
    refine ⟨choice.before, choice.rest, choice.path_eq_before_append_rest, ?_, ?_⟩
    · refine (matchAt_eq_some_iff choice.path_eq_before_append_rest).mpr ⟨choice, rfl, ?_, rfl⟩
      intro other ho
      exact (hf other).2 (congrArg Text.byteLength ho)
    · intro earlier longer hp hl
      cases hm : Regex.matchAt (Text.byteLength path) anchored
          (Regex.ofItems anchored lead stem).places longer with
      | none => exact hm
      | some found =>
          obtain ⟨other, rfl, -, -⟩ := (matchAt_eq_some_iff hp).mp hm
          have bytes := Text.byteLength_lt_of_append_eq (other.path_eq.symm.trans choice.path_eq) hl
          exact absurd (hf other).1 (Nat.not_le_of_gt bytes)

theorem find?_isSome_iff
    : ((Regex.ofItems anchored lead stem).find? path).isSome = true
      ↔ Nonempty (Choice anchored lead stem path) := by
  constructor
  · intro h
    obtain ⟨found, hf⟩ := Option.isSome_iff_exists.mp h
    obtain ⟨choice, -, -⟩ := find?_eq_some_iff.mp hf
    exact ⟨choice⟩
  · intro h
    obtain ⟨choice⟩ := h
    obtain ⟨found, hm⟩ := choice.exists_matchAt
    rw [Regex.find?_eq_firstMatch]
    have hf := @Regex.firstMatch_isSome _ _ _ choice.before _ _ hm
    rwa [← choice.path_eq_before_append_rest] at hf

end

end Choice

end PathGlob
