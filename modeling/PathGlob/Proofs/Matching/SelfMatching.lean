import PathGlob.Proofs.Matching.TrailingDots
import PathGlob.Proofs.Matching.WholeMatches

/-! Globs match their own expressions. Every component of an expression is accepted by its own
items, also those with leading globstars, which may stand for nothing, and a dot that the rule for
it drops is left out of the path.
-/

namespace PathGlob

open ComponentGlob

-----------------------------------------------------------------------------------------
-- Items that accept the text that they are made of
-----------------------------------------------------------------------------------------

theorem skipsTo_of_accepts {isDotless : Bool} {accepts : Text → Bool} {name : Text}
    (h : accepts name = true)
    : skipsTo isDotless accepts name = true := by
  cases name with
  | nil => exact h
  | cons c name => rw [skipsTo, h, Bool.true_or]

/-- A name matches itself, since wildcards match themselves, by induction on the name. -/
theorem nameMatches_self (isDotless : Bool) (name : Text)
    : nameMatches isDotless name name = true := by
  induction name with
  | nil => rfl
  | cons c name ih =>
      rw [nameMatches]
      split
      next hs =>
        have past : skipsTo isDotless (nameMatches isDotless name) name = true :=
          skipsTo_of_accepts ih
        simp [skipsTo, hs, past]
      next hs =>
        split
        next hq => simp [takesTo, hq, ih]
        next => simp [takesTo, ih]

theorem accepts_scan_self (isDotless : Bool) {name : Text} (hn : IsName name)
    : Accepts (Item.scan isDotless name) name :=
  (accepts_scan_iff hn name).mpr ⟨hn, nameMatches_self isDotless name⟩

/-- A component accepts what its final name does, with or without leading globstars. -/
theorem Accepts.ofComponent {trailing : TrailingDot} {name : Text}
    (hd : trailing ≠ .literal → name.getLast? = some '.') {text : Text}
    (h : Accepts (ofFinal trailing name).items text) (leadingGlobstar : Bool)
    : Accepts ((ComponentGlob.ofComponent leadingGlobstar (ofFinal trailing) name).flatMap
        ComponentGlob.items) text := by
  have without : Accepts ((ComponentGlob.ofComponent false (ofFinal trailing) name).flatMap
      ComponentGlob.items) text := by
    simpa [ComponentGlob.ofComponent] using h
  cases leadingGlobstar with
  | false => exact without
  | true => exact without.leadingGlobstar hd

/-- A tree with its separator accepts itself, as one complete component. -/
theorem accepts_globstar_closed {name : Text} {separator : Char} (hn : IsName name)
    (hs : isSeparator separator = true)
    : Accepts [.globstar] (name ++ [separator]) := by
  refine accepts_globstar_iff.mpr ⟨1, [], ?_, accepts_nil_iff.mpr rfl⟩
  exact (dropsComponents_closed_iff hn hs).mpr (dropsComponents_zero_iff.mpr rfl)

/-- What ends a component accepts itself in front of what follows, by induction over its components.
-/
theorem Accepts.of_endsComponent {options : Options} {front : Text} (hf : EndsComponent front)
    : Accepts ((parts options front).flatMap Part.items) front := by
  induction front using componentInduction with
  | last name hn =>
      rw [hn.eq_nil hf]
      exact accepts_nil_iff.mpr rfl
  | closed name separator rest hn hs ih =>
      rw [items_closed _ hn hs, List.append_cons name]
      refine Accepts.append ?_ (ih hf.rest)
      split
      next => exact accepts_globstar_closed hn hs
      next =>
        have own : Accepts (ofFinal .literal name).items name := accepts_scan_self false hn
        refine (own.ofComponent (fun h => absurd rfl h) _).append ?_
        exact accepts_separator_iff.mpr ⟨separator, [], rfl, hs, accepts_nil_iff.mpr rfl⟩

/-- An expression accepts itself up to its last component if this is accepted in place of it. -/
theorem accepts_append_name {options : Options} {front name own : Text} (hf : EndsComponent front)
    (hn : IsName name)
    (h : Accepts (ofFinal (.ofExpression options name) name).items own)
    : Accepts ((parts options (front ++ name)).flatMap Part.items) (front ++ own) := by
  rw [parts_append _ hf, List.flatMap_append, items_last _ hn]
  exact (Accepts.of_endsComponent hf).append (h.ofComponent getLast?_of_ofExpression _)

/-- An expression accepts itself if there is no rule for a dot at its end. -/
theorem accepts_self {options : Options} {expression : Text}
    (h : TrailingDot.ofExpression options expression = .literal)
    : Accepts ((parts options expression).flatMap Part.items) expression := by
  obtain ⟨front, name, rfl, hf, hn⟩ := exists_eq_endsComponent_append expression
  rw [TrailingDot.ofExpression_append _ hf] at h
  refine accepts_append_name hf hn ?_
  rw [h]
  exact accepts_scan_self false hn

/-- With a dot behind it, an expression is accepted where the dot is dropped. -/
theorem accepts_without_dot {options : Options} (hw : options.wildcardDot = true)
    {expression : Text} (hd : AllowsDot expression)
    (hl : (∃ c ∈ lastComponent expression, isWildcard c = true) ∨ options.literalDot = true)
    : Accepts ((parts options (expression ++ ['.'])).flatMap Part.items) expression := by
  obtain ⟨front, name, rfl, hf, hn, hd, last⟩ := hd.exists_eq
  rw [last] at hl
  rw [List.append_assoc]
  refine accepts_append_name hf hn.dot ?_
  rw [TrailingDot.ofExpression_dot hw hd, ofFinal, List.dropLast_concat]
  by_cases hany : (name ++ ['.']).any isWildcard = true
  · rw [if_pos hany]
    exact accepts_scan_self true hn
  · have dropped : options.literalDot = true := by
      rcases hl with hl | hl
      · exact absurd (by simpa using Or.inl hl) hany
      · exact hl
    rw [if_neg hany, if_pos dropped]
    exact accepts_scan_self false hn

/-- A last part that is a wildcard has its wildcards in front of a dot at its end. -/
theorem exists_isWildcard_of_kind {options : Options} (hw : options.wildcardDot = true)
    {expression : Text} (hd : AllowsDot expression) {last : Part}
    (hp : (parts options (expression ++ ['.'])).getLast? = some last) (hk : last.kind = .wildcard)
    : ∃ c ∈ lastComponent expression, isWildcard c = true := by
  refine Decidable.byContradiction fun h => ?_
  have plain : ∀ c ∈ lastComponent expression, isWildcard c = false := by
    intro c hc
    rw [Bool.eq_false_iff]
    exact fun hs => h ⟨c, hc, hs⟩
  obtain ⟨front, name, -, dotted⟩ := exists_parts_dot hw hd plain
  rw [dotted, List.getLast?_concat, Option.some.injEq] at hp
  rw [← hp] at hk
  cases hk

namespace Glob

/-- Every glob takes all of its own expression, with the base path in front and the stem behind it,
be it anchored or not. Where the rule for a dot at its end holds, it takes all of the expression in
front of the dot, if the last part is a wildcard or the dot is dropped from others too.
-/
theorem compile_takes_itself {options : Options} {expression : Text} {full : Matcher}
    (hf : (compile options expression).matcher = .ok full)
    : ∃ stem,
        (compile options expression).stemMatcher = .ok stem
        ∧ (options.wildcardDot = false ∨ (¬∃ front, expression = front ++ ['.'] ∧ AllowsDot front)
          → ∃ suffix, TakesAll (compile options expression).basePath full stem expression suffix)
        ∧ ∀ front,
          options.wildcardDot = true
          → expression = front ++ ['.']
          → AllowsDot front
          → (∃ last, (parts options expression).getLast? = some last ∧ last.kind = .wildcard)
            ∨ options.literalDot = true
          → ∃ suffix, TakesAll (compile options expression).basePath full stem front suffix := by
  obtain ⟨stem, hs⟩ := exists_stemMatcher hf
  refine ⟨stem, hs, ?_, ?_⟩
  · intro h
    exact exists_takesAll hf hs (List.prefix_refl _)
      (accepts_self (TrailingDot.ofExpression_of_inactive h))
  · intro front hw he hd hl
    subst he
    refine exists_takesAll hf hs (List.prefix_append _ _) (accepts_without_dot hw hd ?_)
    rcases hl with ⟨last, hp, hk⟩ | hl
    · exact Or.inl (exists_isWildcard_of_kind hw hd hp hk)
    · exact Or.inr hl

/-- Leading globstars and brackets in a search, and a dot that is dropped behind a wildcard. -/
theorem takes_itself_in_search
    : ∃ full stem dotted short,
        (compile { anchored := false } ['[', 'a', ']', '/', '*', '*', 'b', '(']).matcher = .ok full
        ∧ (compile { anchored := false } ['[', 'a', ']', '/', '*', '*', 'b', '(']).stemMatcher
          = .ok stem
        ∧ (∃ suffix,
          TakesAll ['[', 'a', ']', '/'] full stem ['[', 'a', ']', '/', '*', '*', 'b', '('] suffix)
        ∧ (compile {} ['a', '/', '?', '.']).matcher = .ok dotted
        ∧ (compile {} ['a', '/', '?', '.']).stemMatcher = .ok short
        ∧ ∃ suffix, TakesAll ['a', '/'] dotted short ['a', '/', '?'] suffix := by
  have undotted : ¬∃ front, ['[', 'a', ']', '/', '*', '*', 'b', '('] = front ++ ['.']
      ∧ AllowsDot front := by
    intro h
    obtain ⟨front, he, -⟩ := h
    have last := congrArg List.getLast? he
    rw [List.getLast?_concat] at last
    cases last
  have full := (@matcher_eq_ok_iff { anchored := false }
    ['[', 'a', ']', '/', '*', '*', 'b', '('] _).mpr ⟨by decide, rfl⟩
  have dotted := (@matcher_eq_ok_iff {} ['a', '/', '?', '.'] _).mpr ⟨by decide, rfl⟩
  obtain ⟨stem, hs, itself, -⟩ := compile_takes_itself full
  obtain ⟨short, hd, -, without⟩ := compile_takes_itself dotted
  refine ⟨_, stem, _, short, full, hs, itself (Or.inr undotted), dotted, hd, ?_⟩
  exact without ['a', '/', '?'] rfl rfl ⟨'?', rfl, by decide, rfl⟩ (Or.inr rfl)

end Glob

end PathGlob
