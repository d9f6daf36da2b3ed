import PathGlob.Proofs.Matching.BaseFactorization
import PathGlob.Proofs.Matching.Concatenation

/-! Matches that take a whole path. If the items of a glob accept a path, the search takes all of it
even where it is not anchored: greater counts are preferred, and a match that stops early can be
continued by some item with a greater count.
-/

namespace PathGlob

-----------------------------------------------------------------------------------------
-- The text of a globstar
-----------------------------------------------------------------------------------------

theorem countP_of_isCompleteComponent {text : Text} (h : IsCompleteComponent text)
    : text.countP isSeparator = 1 := by
  obtain ⟨name, separator, rfl, hn, hs⟩ := h
  have nothing : name.countP isSeparator = 0 := List.countP_eq_zero.mpr (by simpa using hn)
  simp [nothing, hs]

/-- Complete components one after another end a component, and have as many separators as they are,
by induction on the components.
-/
theorem endsComponent_flatten {components : List Text}
    (hc : ∀ component ∈ components, IsCompleteComponent component)
    : EndsComponent components.flatten
      ∧ components.flatten.countP isSeparator = components.length := by
  induction components with
  | nil => simp [EndsComponent]
  | cons first components ih =>
      have hf := hc first (by simp)
      obtain ⟨ends, counted⟩ := ih fun component hm => hc component (by simp [hm])
      refine ⟨?_, ?_⟩
      · obtain ⟨name, separator, rfl, -, hs⟩ := hf
        exact (endsComponent_closed name hs).append ends
      · rw [List.flatten_cons, List.countP_append, countP_of_isCompleteComponent hf, counted,
          List.length_cons, Nat.add_comm]

/-- What ends a component is made of complete ones, by induction over them. -/
theorem exists_components_of_endsComponent {text : Text} (h : EndsComponent text)
    : ∃ components : List Text,
        (∀ component ∈ components, IsCompleteComponent component) ∧ text = components.flatten := by
  induction text using componentInduction with
  | last name hn => exact ⟨[], by simp, hn.eq_nil h⟩
  | closed name separator rest hn hs ih =>
      obtain ⟨components, hc, rfl⟩ := ih h.rest
      refine ⟨(name ++ [separator]) :: components, ?_, by simp⟩
      intro component hm
      rcases List.mem_cons.mp hm with rfl | hm
      · exact ⟨name, separator, rfl, hn, hs⟩
      · exact hc component hm

/-- A globstar consumes what ends a component, and counts its separators. -/
theorem consumes_globstar_iff {counts : List Nat} {text : Text}
    : Item.globstar.Consumes counts text
      ↔ EndsComponent text ∧ counts = [text.countP isSeparator] := by
  constructor
  · intro h
    cases h with
    | globstar complete =>
        obtain ⟨ends, counted⟩ := endsComponent_flatten complete
        exact ⟨ends, by rw [counted]⟩
  · intro h
    obtain ⟨ends, rfl⟩ := h
    obtain ⟨components, hc, rfl⟩ := exists_components_of_endsComponent ends
    rw [(endsComponent_flatten hc).2]
    exact .globstar hc

-----------------------------------------------------------------------------------------
-- Greater counts of what stops early
-----------------------------------------------------------------------------------------

/-- An item that counts nothing always consumes one character. -/
theorem Item.Consumes.length_eq_one {item : Item} {head text : Text} {counts : List Nat}
    (h : item.Consumes [] head) (ht : item.Consumes counts text)
    : text.length = 1 := by
  cases h <;> cases ht <;> rfl

/-- An item that stops early goes on, with a greater count, to where it stops when it begins no
later.
-/
theorem Item.Consumes.extend {item : Item} {skip head more : Text} {counts own : List Nat}
    (whole : item.Consumes counts (skip ++ (head ++ more))) (early : item.Consumes own head)
    (hm : more ≠ [])
    : ∃ greater,
        item.Consumes greater (head ++ more)
        ∧ ∀ left right, CountsLess (own ++ left) (greater ++ right) := by
  have longer : 0 < more.length := List.length_pos_iff.mpr hm
  have uncounted (hc : item.Consumes [] head) : False := by
    have single := hc.length_eq_one hc
    have short := hc.length_eq_one whole
    simp only [List.length_append] at short
    omega
  cases early with
  | literal c => exact (uncounted (.literal c)).elim
  | separator separates => exact (uncounted (.separator separates)).elim
  | one admitted => exact (uncounted (.one admitted)).elim
  | many admitted =>
      generalize ht : skip ++ (head ++ more) = text at whole
      cases whole with
      | many all =>
          subst ht
          have left := fun c hc => all c (List.mem_append_right skip hc)
          refine ⟨_, .many left, fun left right => .rel ?_⟩
          rw [List.length_append]
          omega
  | globstar complete =>
      obtain ⟨ends, -⟩ := consumes_globstar_iff.mp whole
      have closed := ends.of_append
      refine ⟨_, consumes_globstar_iff.mpr ⟨closed, rfl⟩, fun left right => .rel ?_⟩
      have closing : 0 < more.countP isSeparator :=
        List.countP_pos_iff.mpr
          ⟨more.getLast hm, List.getLast_mem hm,
            closed.of_append _ (List.getLast?_eq_some_getLast hm)⟩
      rw [List.countP_append, (endsComponent_flatten complete).2]
      omega

/-- Items that stop early in a text can take the rest of it too, with greater counts, if they
consume all of it from no later on. The induction is on the items and follows both ways to consume
them up to the item where the one that began no later gets ahead.
-/
theorem exists_consumes_greater {items : List Item} {skip head after : Text}
    {counts own : List Nat} (whole : Consumes items counts (skip ++ (head ++ after)))
    (early : Consumes items own head) (ha : after ≠ [])
    : ∃ greater, Consumes items greater (head ++ after) ∧ CountsLess own greater := by
  induction items generalizing skip head counts own with
  | nil =>
      generalize ht : skip ++ (head ++ after) = text at whole
      cases whole
      simp [ha] at ht
  | cons item items ih =>
      generalize ht : skip ++ (head ++ after) = text at whole
      cases early with
      | @cons _ _ own others head rest first early =>
          cases whole with
          | @cons _ _ long more far tail overtaking whole =>
              have go_on {middle : Text} (whole : Consumes items more (middle ++ (rest ++ after)))
                  : ∃ greater,
                      Consumes (item :: items) greater (head ++ rest ++ after)
                      ∧ CountsLess (own ++ others) greater := by
                obtain ⟨greater, hg, hc⟩ := ih whole early
                refine ⟨own ++ greater, ?_, hc.append own⟩
                rw [List.append_assoc]
                exact .cons first hg
              rw [List.append_assoc, ← List.append_assoc skip] at ht
              rcases List.append_eq_append_iff.mp ht with ⟨middle, rfl, hr⟩ | ⟨middle, -, rfl⟩
              · by_cases hm : middle = []
                · subst hm hr
                  exact @go_on [] whole
                · -- This item gets ahead, so it goes on; the items after it are those of the whole.
                  rw [List.append_assoc] at overtaking
                  obtain ⟨greater, hg, hc⟩ := overtaking.extend first hm
                  refine ⟨greater ++ more, ?_, hc others more⟩
                  rw [List.append_assoc, hr, ← List.append_assoc]
                  exact .cons hg whole
              · exact go_on whole

-----------------------------------------------------------------------------------------
-- Searches in paths that are accepted as a whole
-----------------------------------------------------------------------------------------

section
variable {anchored : Bool} {lead stem : List Item} {path : Text}

/-- The preferred choice takes all of a path that the items accept. It begins where the path does,
and if it stopped early some other choice would have greater counts.
-/
theorem Choice.IsPreferred.whole {choice : Choice anchored lead stem path}
    (hp : choice.IsPreferred) (h : Accepts (lead ++ stem) path)
    : choice.before = [] ∧ choice.after = [] := by
  have chosen {counts : List Nat} (hc : Consumes (lead ++ stem) counts path)
      : ∃ other : Choice anchored lead stem path,
          other.toMatch.span.start = 0 ∧ other.counts = counts := by
    obtain ⟨_, _, base, inside, rfl, he, hb, hi⟩ := consumes_append_iff.mp hc
    exact ⟨⟨[], base, inside, [], _, _, by simpa using he, fun _ => ⟨rfl, rfl⟩, hb, hi⟩, rfl, rfl⟩
  obtain ⟨counts, hc⟩ := h
  obtain ⟨other, start, -⟩ := chosen hc
  have first : choice.toMatch.span.start = 0 := Nat.eq_zero_of_le_zero (start ▸ (hp other).1)
  have before : choice.before = [] := Text.byteLength_eq_zero_iff.mp first
  refine ⟨before, Decidable.byContradiction fun ha => ?_⟩
  have cut : path = choice.base ++ choice.inside ++ choice.after := by
    simpa [before] using choice.path_eq
  have early : Consumes (lead ++ stem) choice.counts (choice.base ++ choice.inside) :=
    consumes_append_iff.mpr
      ⟨_, _, _, _, rfl, rfl, choice.consumes_base, choice.consumes_inside⟩
  rw [cut] at hc
  obtain ⟨greater, hg, more⟩ := @exists_consumes_greater _ [] _ _ _ _ hc early ha
  rw [← cut] at hg
  obtain ⟨other, start, rfl⟩ := chosen hg
  have less := (hp other).2 (start.trans first.symm)
  exact CountsLess.irrefl _ (CountsLess.antisymm less (Or.inr more) ▸ more)

/-- A search in an accepted path finds a choice that takes all of it. -/
theorem exists_find?_eq (h : Accepts (lead ++ stem) path)
    : ∃ choice : Choice anchored lead stem path,
        (Regex.ofItems anchored lead stem).find? path = some choice.toMatch
        ∧ choice.before = []
        ∧ path = choice.base ++ choice.inside := by
  have chosen : Nonempty (Choice anchored lead stem path) :=
    nonempty_choice_iff_exists_accepts.mpr ⟨[], path, [], by simp, fun _ => ⟨rfl, rfl⟩, h⟩
  obtain ⟨found, hf⟩ := Option.isSome_iff_exists.mp (Choice.find?_isSome_iff.mpr chosen)
  obtain ⟨choice, hp, rfl⟩ := Choice.find?_eq_some_iff.mp hf
  obtain ⟨before, after⟩ := hp.whole h
  exact ⟨choice, hf, before, by simpa [before, after] using choice.path_eq⟩

end

namespace Matcher

/-- The match in the path is all of it. -/
def MatchesAll (matcher : Matcher) (path : Text) : Prop :=
  ∃ found,
    matcher.find? path = some found
    ∧ found.span = { start := 0, stop := Text.byteLength path }

end Matcher

/-- A path is a base path and a suffix of it, as the matchers of a glob see it: that of whole paths
takes all of it and gives the suffix as its stem, and that of the stem takes all of the suffix.
-/
structure TakesAll (base : Text) (full stem : Matcher) (path suffix : Text) : Prop where
  path_eq : path = base ++ suffix
  matches_path : full.MatchesAll path
  stem_eq : full.stem? path = some suffix
  matches_suffix : stem.MatchesAll suffix

namespace Glob

theorem matchesAll_of_accepts {anchored : Bool} {lead stem : List Item} {path : Text}
    (h : Accepts (lead ++ stem) path)
    : Matcher.MatchesAll { regex := Regex.ofItems anchored lead stem } path := by
  obtain ⟨choice, hf, before, hp⟩ := @exists_find?_eq anchored _ _ _ h
  refine ⟨_, hf, ?_⟩
  simp [Choice.toMatch, before, ← hp]

/-- The raw texts of the parts in front of the stem are the base path. -/
theorem exists_eq_basePath_append (options : Options) (expression : Text)
    : ∃ rest, expression = (compile options expression).basePath ++ rest := by
  refine ⟨(stemParts (parts options expression)).flatMap Part.raw, ?_⟩
  have whole := flatMap_raw_parts options expression
  rw [← baseParts_append_stemParts (parts options expression), List.flatMap_append] at whole
  exact whole.symm

/-- A glob takes all of a path that the items of its parts accept, if its expression begins with
this path.
-/
theorem exists_takesAll {options : Options} {expression : Text} {full stem : Matcher}
    (hf : (compile options expression).matcher = .ok full)
    (hs : (compile options expression).stemMatcher = .ok stem) {path : Text}
    (hp : path <+: expression)
    (h : Accepts ((parts options expression).flatMap Part.items) path)
    : ∃ suffix, TakesAll (compile options expression).basePath full stem path suffix := by
  obtain ⟨-, rfl⟩ := matcher_eq_ok_iff.mp hf
  obtain ⟨-, rfl⟩ := stemMatcher_eq_ok_iff.mp hs
  rw [← leadReading_append_stemReading] at h
  obtain ⟨choice, hm, before, hc⟩ := @exists_find?_eq options.anchored _ _ _ h
  obtain ⟨rest, hr⟩ := exists_eq_basePath_append options expression
  obtain ⟨more, he⟩ := hp
  have cut := calc choice.base ++ (choice.inside ++ more)
    _ = choice.base ++ choice.inside ++ more := (List.append_assoc ..).symm
    _ = path ++ more := congrArg (· ++ more) hc.symm
    _ = expression := he
    _ = (compile options expression).basePath ++ rest := hr
  have lengths := choice.byteLength_base (spells_basePath options expression)
  obtain ⟨base, -⟩ := Text.append_inj_of_byteLength_eq cut lengths
  refine ⟨choice.inside, ?_, matchesAll_of_accepts h, ?_, ?_⟩
  · exact hc.trans (congrArg (· ++ choice.inside) base)
  · rw [Matcher.stem?, Matcher.find?, hm]
    exact choice.slice?_inside
  · exact matchesAll_of_accepts ⟨_, choice.consumes_inside⟩

/-- The stem of a glob is no larger than the whole, so its matcher can be built if that one can. -/
theorem exists_stemMatcher {options : Options} {expression : Text} {full : Matcher}
    (hf : (compile options expression).matcher = .ok full)
    : ∃ stem, (compile options expression).stemMatcher = .ok stem := by
  obtain ⟨size, -⟩ := matcher_eq_ok_iff.mp hf
  refine ⟨_, stemMatcher_eq_ok_iff.mpr ⟨?_, rfl⟩⟩
  rw [size_ofItems, itemsSize_append] at size
  rw [size_ofItems, List.nil_append]
  omega

end Glob

end PathGlob
