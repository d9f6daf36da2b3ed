import PathGlob.Proofs.Matching.CompiledMatching

/-! The texts that items accept as a whole, whatever their counts are. An anchored glob matches
the paths that the items of all its parts accept.
-/

namespace PathGlob

/-- Items accept the texts that they consume. -/
def Accepts (items : List Item) (text : Text) : Prop :=
  ∃ counts, Consumes items counts text

section
variable {items : List Item} {text : Text}

theorem accepts_nil_iff : Accepts [] text ↔ text = [] := by
  constructor
  · intro h
    obtain ⟨counts, hc⟩ := h
    cases hc
    rfl
  · intro h
    subst h
    exact ⟨[], .nil⟩

theorem accepts_cons_iff {item : Item}
    : Accepts (item :: items) text
      ↔ ∃ own head tail, text = head ++ tail ∧ item.Consumes own head ∧ Accepts items tail := by
  constructor
  · intro h
    obtain ⟨counts, hc⟩ := h
    cases hc with
    | @cons _ _ own others head tail first others => exact ⟨own, head, tail, rfl, first, _, others⟩
  · intro h
    obtain ⟨own, head, tail, rfl, first, counts, others⟩ := h
    exact ⟨own ++ counts, .cons first others⟩

theorem accepts_append_iff {left right : List Item}
    : Accepts (left ++ right) text
      ↔ ∃ head tail, text = head ++ tail ∧ Accepts left head ∧ Accepts right tail := by
  constructor
  · intro h
    obtain ⟨counts, hc⟩ := h
    obtain ⟨_, _, head, tail, -, rfl, hl, hr⟩ := consumes_append_iff.mp hc
    exact ⟨head, tail, rfl, ⟨_, hl⟩, ⟨_, hr⟩⟩
  · intro h
    obtain ⟨head, tail, rfl, ⟨_, hl⟩, ⟨_, hr⟩⟩ := h
    exact ⟨_, consumes_append_iff.mpr ⟨_, _, head, tail, rfl, rfl, hl, hr⟩⟩

theorem accepts_literal_iff {c : Char}
    : Accepts (.literal c :: items) text ↔ ∃ rest, text = c :: rest ∧ Accepts items rest := by
  rw [accepts_cons_iff]
  constructor
  · intro h
    obtain ⟨own, head, tail, rfl, first, others⟩ := h
    cases first
    exact ⟨tail, rfl, others⟩
  · intro h
    obtain ⟨rest, rfl, others⟩ := h
    exact ⟨[], [c], rest, rfl, .literal c, others⟩

theorem accepts_separator_iff
    : Accepts (.separator :: items) text
      ↔ ∃ c rest, text = c :: rest ∧ isSeparator c = true ∧ Accepts items rest := by
  rw [accepts_cons_iff]
  constructor
  · intro h
    obtain ⟨own, head, tail, rfl, first, others⟩ := h
    cases first with
    | separator hs => exact ⟨_, tail, rfl, hs, others⟩
  · intro h
    obtain ⟨c, rest, rfl, hs, others⟩ := h
    exact ⟨[], [c], rest, rfl, .separator hs, others⟩

theorem accepts_one_iff {isDotless : Bool}
    : Accepts (.one isDotless :: items) text
      ↔ ∃ c rest, text = c :: rest ∧ Item.admits isDotless c = true ∧ Accepts items rest := by
  rw [accepts_cons_iff]
  constructor
  · intro h
    obtain ⟨own, head, tail, rfl, first, others⟩ := h
    cases first with
    | one ha => exact ⟨_, tail, rfl, ha, others⟩
  · intro h
    obtain ⟨c, rest, rfl, ha, others⟩ := h
    exact ⟨[], [c], rest, rfl, .one ha, others⟩

/-- An asterisk accepts nothing, or one character more than before. -/
theorem accepts_many_iff {isDotless : Bool}
    : Accepts (.many isDotless :: items) text
      ↔ Accepts items text
        ∨ ∃ c rest,
            text = c :: rest
            ∧ Item.admits isDotless c = true
            ∧ Accepts (.many isDotless :: items) rest := by
  rw [accepts_cons_iff]
  constructor
  · intro h
    obtain ⟨own, head, tail, rfl, first, others⟩ := h
    cases first with
    | many ha =>
        cases head with
        | nil => exact Or.inl others
        | cons c head =>
            refine Or.inr ⟨c, head ++ tail, rfl, ha c (by simp), accepts_cons_iff.mpr ?_⟩
            exact ⟨_, head, tail, rfl, .many fun d hd => ha d (by simp [hd]), others⟩
  · intro h
    rcases h with others | ⟨c, rest, rfl, hc, h⟩
    · exact ⟨[0], [], text, rfl, @Item.Consumes.many isDotless [] (by simp), others⟩
    · obtain ⟨own, head, tail, rfl, first, others⟩ := accepts_cons_iff.mp h
      cases first with
      | many ha =>
          refine ⟨_, c :: head, tail, rfl, .many ?_, others⟩
          intro d hd
          rcases List.mem_cons.mp hd with rfl | hd
          · exact hc
          · exact ha d hd

theorem accepts_globstar_iff
    : Accepts (.globstar :: items) text
      ↔ ∃ count rest, DropsComponents count text rest ∧ Accepts items rest := by
  rw [accepts_cons_iff]
  constructor
  · intro h
    obtain ⟨own, head, tail, rfl, first, others⟩ := h
    cases first with
    | @globstar components hc => exact ⟨_, tail, ⟨components, rfl, hc, rfl⟩, others⟩
  · intro h
    obtain ⟨count, rest, ⟨components, rfl, hc, rfl⟩, others⟩ := h
    exact ⟨_, components.flatten, rest, rfl, .globstar hc, others⟩

end

/-- Items have a choice in a path if they accept a slice of it, or all of it if anchored. -/
theorem nonempty_choice_iff_exists_accepts {anchored : Bool} {lead stem : List Item} {path : Text}
    : Nonempty (Choice anchored lead stem path)
      ↔ ∃ before inside after,
          path = before ++ (inside ++ after)
          ∧ (anchored = true → before = [] ∧ after = [])
          ∧ Accepts (lead ++ stem) inside := by
  refine ⟨fun h => ?_, fun h => ?_⟩
  · obtain ⟨choice⟩ := h
    refine ⟨choice.before, choice.base ++ choice.inside, choice.after, ?_, choice.anchored_eq, ?_⟩
    · simpa using choice.path_eq
    · exact accepts_append_iff.mpr
        ⟨_, _, rfl, ⟨_, choice.consumes_base⟩, ⟨_, choice.consumes_inside⟩⟩
  · obtain ⟨before, inside, after, hp, ha, h⟩ := h
    obtain ⟨base, stem, rfl, ⟨_, hb⟩, ⟨_, hi⟩⟩ := accepts_append_iff.mp h
    exact ⟨⟨before, base, stem, after, _, _, by simpa using hp, ha, hb, hi⟩⟩

/-- Anchored items have a choice in exactly the paths that they accept. -/
theorem nonempty_choice_iff_accepts {anchored : Bool} (ha : anchored = true)
    {lead stem : List Item} {path : Text}
    : Nonempty (Choice anchored lead stem path) ↔ Accepts (lead ++ stem) path := by
  rw [nonempty_choice_iff_exists_accepts]
  refine ⟨fun h => ?_, fun h => ⟨[], path, [], by simp, fun _ => ⟨rfl, rfl⟩, h⟩⟩
  obtain ⟨before, inside, after, rfl, hb, h⟩ := h
  obtain ⟨rfl, rfl⟩ := hb ha
  simpa using h

/-- The items of an expression are those of its base path and of its stem. -/
theorem leadReading_append_stemReading (options : Options) (expression : Text)
    : leadReading options expression ++ stemReading options expression
      = (parts options expression).flatMap Part.items := by
  rw [leadReading_eq, stemReading_eq, ← List.flatMap_append, baseParts_append_stemParts]

namespace Glob

theorem map_matcher_eq_ok_iff {regex : Regex} {error : GlobError} {matcher : Matcher}
    : (if regex.size ≤ Regex.sizeLimit then
            Except.ok regex
          else
            .error error).map (fun regex => ({ regex } : Matcher))
        = .ok matcher
      ↔ regex.size ≤ Regex.sizeLimit ∧ { regex } = matcher := by
  split
  next h => simp [Except.map, h]
  next h => simp [Except.map, h]

/-- A matcher can be built within the size limit, and searches for the items of the
expression.
-/
theorem matcher_eq_ok_iff {options : Options} {expression : Text} {matcher : Matcher}
    : (compile options expression).matcher = .ok matcher
      ↔ (Regex.ofItems options.anchored (leadReading options expression)
            (stemReading options expression)).size
          ≤ Regex.sizeLimit
        ∧ {
            regex :=
              Regex.ofItems options.anchored (leadReading options expression)
                (stemReading options expression)
          } = matcher := by
  rw [Glob.matcher, regex_compile]
  exact map_matcher_eq_ok_iff

/-- A matcher of the stem can be built within the size limit, and searches for the items of
the stem.
-/
theorem stemMatcher_eq_ok_iff {options : Options} {expression : Text} {matcher : Matcher}
    : (compile options expression).stemMatcher = .ok matcher
      ↔ (Regex.ofItems options.anchored [] (stemReading options expression)).size
          ≤ Regex.sizeLimit
        ∧ { regex := Regex.ofItems options.anchored [] (stemReading options expression) }
          = matcher := by
  rw [Glob.stemMatcher, stemRegex_compile]
  exact map_matcher_eq_ok_iff

/-- A glob matches the paths of which the items of its parts accept a slice. -/
theorem isMatch_iff_exists_accepts {options : Options} {expression : Text} {matcher : Matcher}
    (hm : (compile options expression).matcher = .ok matcher) (path : Text)
    : matcher.isMatch path = true
      ↔ ∃ before inside after,
          path = before ++ (inside ++ after)
          ∧ (options.anchored = true → before = [] ∧ after = [])
          ∧ Accepts ((parts options expression).flatMap Part.items) inside := by
  obtain ⟨-, rfl⟩ := matcher_eq_ok_iff.mp hm
  rw [Matcher.isMatch, Matcher.find?, Choice.find?_isSome_iff, nonempty_choice_iff_exists_accepts,
    leadReading_append_stemReading]

/-- An anchored glob matches the paths that the items of its parts accept. -/
theorem isMatch_iff_accepts {options : Options} (ha : options.anchored = true)
    {expression : Text} {matcher : Matcher}
    (hm : (compile options expression).matcher = .ok matcher) (path : Text)
    : matcher.isMatch path = true
      ↔ Accepts ((parts options expression).flatMap Part.items) path := by
  obtain ⟨-, rfl⟩ := matcher_eq_ok_iff.mp hm
  rw [Matcher.isMatch, Matcher.find?, Choice.find?_isSome_iff, nonempty_choice_iff_accepts ha,
    leadReading_append_stemReading]

end Glob

end PathGlob
