import PathGlob.Proofs.Compilation.PartDependence
import PathGlob.Proofs.Matching.DotlessNames
import PathGlob.Proofs.Matching.LeadingGlobstars
import PathGlob.Proofs.Segmentation.LastComponent

/-! A single dot behind an expression, which asks for names without an extension. It keeps dots out
of the wildcards of the last component, and is dropped from a last component without any or is a
character like any other there.
-/

namespace PathGlob

open ComponentGlob

-----------------------------------------------------------------------------------------
-- The last component of an expression among what its components ask for
-----------------------------------------------------------------------------------------

/-- The components of what ends a component come before the name that follows, by induction over
them.
-/
theorem exists_componentsOf_append {front : Text} (hf : EndsComponent front)
    : ∃ components, ∀ name, IsName name → componentsOf (front ++ name) = components ++ [name] := by
  induction front using componentInduction with
  | last front hn =>
      rw [hn.eq_nil hf]
      exact ⟨[], fun name hn => componentsOf_name hn⟩
  | closed first separator rest hn hs ih =>
      obtain ⟨components, h⟩ := ih hf.rest
      refine ⟨first :: components, fun name hm => ?_⟩
      rw [List.append_assoc, List.cons_append, componentsOf_closed hn hs, h name hm,
        List.cons_append]

theorem getLast?_componentsOf (text : Text)
    : (componentsOf text).getLast? = some (lastComponent text) := by
  obtain ⟨front, name, rfl, hf, hn⟩ := exists_eq_endsComponent_append text
  obtain ⟨components, h⟩ := exists_componentsOf_append hf
  rw [h name hn, lastComponent_append hf hn, List.getLast?_concat]

/-- What a final component asks for comes after what those in front of it do, by induction over
these.
-/
theorem exists_ofComponents_append (options : Options) (components : List Text)
    : ∃ globs, ∀ final,
        ofComponents options (components ++ [final])
        = globs
          ++ ofComponent options.leadingGlobstar (ofFinal (.ofExpression options final)) final := by
  induction components with
  | nil =>
      refine ⟨[], fun final => ?_⟩
      rw [TrailingDot.ofExpression_eq_ruleFor]
      rfl
  | cons component components ih =>
      obtain ⟨globs, h⟩ := ih
      refine ⟨(if IsStars component then
          [tree]
        else
          ofComponent options.leadingGlobstar (name false) component) ++ globs, fun final => ?_⟩
      rw [List.append_assoc, ← h final]
      cases components <;> rfl

-----------------------------------------------------------------------------------------
-- The last component with a dot behind it
-----------------------------------------------------------------------------------------

/-- A dot behind a component with wildcards excludes dots from its name and changes nothing else.
-/
theorem exists_ofComponent_dot {component : Text} (hw : component.any isWildcard = true)
    (leadingGlobstar isDropped : Bool)
    : ∃ globs glob,
        ofComponent leadingGlobstar (ofFinal .literal) component = globs ++ [name false glob]
        ∧ ofComponent leadingGlobstar (ofFinal (.noExtension isDropped)) (component ++ ['.'])
          = globs ++ [name true glob]
        ∧ glob.count '.' = component.count '.' := by
  have final {text : Text} (h : text.any isWildcard = true)
      : ofFinal (.noExtension isDropped) (text ++ ['.']) = name true text := by
    rw [ofFinal, List.any_append, h, Bool.true_or, if_pos rfl, List.dropLast_concat]
  by_cases hb : leadingGlobstar = true ∧ BeginsWithStars component
  · obtain ⟨rfl, hb⟩ := hb
    obtain ⟨count, rest, rfl, hr⟩ := hb.exists_eq
    refine ⟨[tree], '*' :: rest, ofComponent_stars hr, ?_, ?_⟩
    · rw [List.append_assoc, List.cons_append, ofComponent_stars (head?_dot hr), ← List.cons_append,
        final (by simp [isWildcard])]
      rfl
    · simp [List.count_replicate]
  · rw [not_and] at hb
    refine ⟨[], component, ofComponent_whole hb _, ?_, rfl⟩
    rw [ofComponent_whole fun hl => mt beginsWithStars_dot_iff.mp (hb hl), final hw]
    rfl

/-- With a dot behind it, an expression accepts of its paths those whose last component has as many
dots as its own, if this has wildcards.
-/
theorem accepts_dot_iff {options : Options} (hw : options.wildcardDot = true) {expression : Text}
    (hd : AllowsDot expression) (hl : (lastComponent expression).any isWildcard = true)
    (path : Text)
    : Accepts ((parts options (expression ++ ['.'])).flatMap Part.items) path
      ↔ Accepts ((parts options expression).flatMap Part.items) path
        ∧ (lastComponent path).count '.' = (lastComponent expression).count '.' := by
  obtain ⟨front, name, rfl, hf, hn, hd, last⟩ := hd.exists_eq
  rw [last] at hl ⊢
  obtain ⟨components, hc⟩ := exists_componentsOf_append hf
  obtain ⟨globs, hg⟩ := exists_ofComponents_append options components
  obtain ⟨others, glob, plain, dotless, dots⟩ :=
    exists_ofComponent_dot hl options.leadingGlobstar options.literalDot
  have asked : ofComponents options (componentsOf (front ++ name))
      = globs ++ others ++ [ComponentGlob.name false glob] := by
    rw [hc _ hn, hg, TrailingDot.ofExpression_of_allowsDot _ hd, plain, List.append_assoc]
  have asked_dotless : ofComponents options (componentsOf (front ++ name ++ ['.']))
      = globs ++ others ++ [ComponentGlob.name true glob] := by
    rw [List.append_assoc, hc _ hn.dot, hg, TrailingDot.ofExpression_dot hw hd, dotless,
      List.append_assoc]
  rw [agrees_parts options _ path, agrees_parts options _ path, asked, asked_dotless,
    accepts_dotless_iff, getLast?_componentsOf, dots]
  simp

-----------------------------------------------------------------------------------------
-- A last component without wildcards and a dot behind it
-----------------------------------------------------------------------------------------

/-- A dot behind a last component without wildcards belongs to the raw text of its part, and is an
item unless the rule drops it.
-/
theorem exists_parts_dot {options : Options} (hw : options.wildcardDot = true) {expression : Text}
    (hd : AllowsDot expression) (hl : ∀ c ∈ lastComponent expression, isWildcard c = false)
    : ∃ front name,
        parts options expression
          = front ++ [{ raw := name, kind := .plain, items := Item.ofLiteral name }]
        ∧ parts options (expression ++ ['.'])
          = front ++ [{
              raw := name ++ ['.']
              kind := .plain
              items := Item.ofLiteral (if options.literalDot then name else name ++ ['.'])
            }] := by
  obtain ⟨front, name, rfl, hf, hn, hd, last⟩ := hd.exists_eq
  rw [last] at hl
  have dotted : ∀ c ∈ name ++ ['.'], isWildcard c = false :=
    List.forall_mem_append.mpr ⟨hl, by simp [isWildcard]⟩
  refine ⟨parts options front, name, ?_, ?_⟩
  · rw [parts_append _ hf, parts_plain options hn hd.ne_nil hl,
      TrailingDot.ofExpression_of_allowsDot _ hd]
    rfl
  · rw [List.append_assoc, parts_append _ hf, parts_plain options hn.dot (by simp) dotted,
      TrailingDot.ofExpression_dot hw hd]
    cases options.literalDot <;> simp [Part.ofSegment, Segment.items, Text.withoutDot]

/-- A dot that is not dropped is a character like any other. -/
theorem accepts_kept_dot_iff {options : Options} (hw : options.wildcardDot = true)
    (hx : options.literalDot = false) {expression : Text} (hd : AllowsDot expression)
    (hl : ∀ c ∈ lastComponent expression, isWildcard c = false) (path : Text)
    : Accepts ((parts options (expression ++ ['.'])).flatMap Part.items) path
      ↔ ∃ rest,
          path = rest ++ ['.'] ∧ Accepts ((parts options expression).flatMap Part.items) rest := by
  obtain ⟨front, name, without, within⟩ := exists_parts_dot hw hd hl
  have last : (parts options (expression ++ ['.'])).flatMap Part.items
      = (parts options expression).flatMap Part.items ++ [.literal '.'] := by
    simp [without, within, hx, Item.ofLiteral]
  rw [last, accepts_append_iff]
  simp only [accepts_literal_iff, accepts_nil_iff]
  constructor
  · intro h
    obtain ⟨head, _, rfl, h, _, rfl, rfl⟩ := h
    exact ⟨head, rfl, h⟩
  · intro h
    obtain ⟨rest, rfl, h⟩ := h
    exact ⟨rest, ['.'], rfl, h, [], rfl, rfl⟩

namespace Glob

/-- A dot that is dropped leaves no trace in the glob, since it is behind the base path. -/
theorem compile_dropped_dot {options : Options} (hw : options.wildcardDot = true)
    (hx : options.literalDot = true) {expression : Text} (hd : AllowsDot expression)
    (hl : ∀ c ∈ lastComponent expression, isWildcard c = false)
    : compile options (expression ++ ['.']) = compile options expression := by
  obtain ⟨front, name, plain, dotted⟩ := exists_parts_dot hw hd hl
  rw [compile_eq_ofParts, compile_eq_ofParts, plain, dotted, hx]
  refine ofParts_congr ?_ ?_ options.anchored
  · simp [Part.bare]
  · rw [baseParts_append_singleton _ (by simp), baseParts_append_singleton _ (by simp)]

/-- A single dot behind an expression. It keeps dots out of the wildcards of the last component, so
that paths are matched which have no dots there but its own; without wildcards it is dropped, or is
a character like any other if the flag for this is not set.
-/
theorem compile_dot {options : Options} (hw : options.wildcardDot = true) {expression : Text}
    (hd : AllowsDot expression)
    : ((∃ c ∈ lastComponent expression, isWildcard c = true)
        → options.anchored = true
        → ∀ dotted plain,
          (compile options (expression ++ ['.'])).matcher = .ok dotted
          → (compile options expression).matcher = .ok plain
          → ∀ path,
            dotted.isMatch path = true
            ↔ plain.isMatch path = true
              ∧ (lastComponent path).count '.' = (lastComponent expression).count '.')
      ∧ ((∀ c ∈ lastComponent expression, isWildcard c = false)
        → options.literalDot = true
        → compile options (expression ++ ['.']) = compile options expression)
      ∧ ((∀ c ∈ lastComponent expression, isWildcard c = false)
        → options.literalDot = false
        → options.anchored = true
        → ∀ dotted plain,
          (compile options (expression ++ ['.'])).matcher = .ok dotted
          → (compile options expression).matcher = .ok plain
          → ∀ path,
            dotted.isMatch path = true
            ↔ ∃ rest, path = rest ++ ['.'] ∧ plain.isMatch rest = true) := by
  refine ⟨?_, fun hl hx => compile_dropped_dot hw hx hd hl, ?_⟩
  · intro hl ha dotted plain hm hp path
    rw [isMatch_iff_accepts ha hm, isMatch_iff_accepts ha hp]
    exact accepts_dot_iff hw hd (List.any_eq_true.mpr hl) path
  · intro hl hx ha dotted plain hm hp path
    rw [isMatch_iff_accepts ha hm]
    simp only [isMatch_iff_accepts ha hp]
    exact accepts_kept_dot_iff hw hx hd hl path

/-- A dot behind a name with a wildcard, and behind one without any both where it is dropped and
where it is not.
-/
theorem isMatch_dot
    : ∃ dotted plain literal bare,
        (compile {} ['a', '/', 'b', '.', '*', '.']).matcher = .ok dotted
        ∧ (compile {} ['a', '/', 'b', '.', '*']).matcher = .ok plain
        ∧ (compile { literalDot := false } ['*', '/', 'b', '.']).matcher = .ok literal
        ∧ (compile { literalDot := false } ['*', '/', 'b']).matcher = .ok bare
        ∧ dotted.isMatch ['a', '/', 'b', '.', 'c'] = true
        ∧ ¬dotted.isMatch ['a', '/', 'b', '.', 'c', '.', 'd'] = true
        ∧ compile {} ['a', '/', 'b', '.'] = compile {} ['a', '/', 'b']
        ∧ literal.isMatch ['a', '/', 'b', '.'] = true := by
  have allows (front : Text) (c : Char) (hc : c ≠ '.') (hs : isSeparator c = false)
      : AllowsDot (front ++ [c]) :=
    ⟨c, by simp, hc, hs⟩
  have name : ∀ c ∈ ['b'], isWildcard c = false := by simp [isWildcard]
  have dotted := (@matcher_eq_ok_iff {} ['a', '/', 'b', '.', '*', '.'] _).mpr ⟨by decide, rfl⟩
  have plain := (@matcher_eq_ok_iff {} ['a', '/', 'b', '.', '*'] _).mpr ⟨by decide, rfl⟩
  have literal := (@matcher_eq_ok_iff { literalDot := false } ['*', '/', 'b', '.'] _).mpr
    ⟨by decide, rfl⟩
  have bare := (@matcher_eq_ok_iff { literalDot := false } ['*', '/', 'b'] _).mpr
    ⟨by decide, rfl⟩
  have wildcard := (@compile_dot {} rfl ['a', '/', 'b', '.', '*']
    (allows ['a', '/', 'b', '.'] '*' (by decide) rfl)).1
    ⟨'*', by decide, rfl⟩ rfl _ _ dotted plain
  have dropped := (@compile_dot {} rfl ['a', '/', 'b']
    (allows ['a', '/'] 'b' (by decide) rfl)).2.1 name rfl
  have kept := (@compile_dot { literalDot := false } rfl ['*', '/', 'b']
    (allows ['*', '/'] 'b' (by decide) rfl)).2.2 name rfl rfl _ _ literal bare
  refine ⟨_, _, _, _, dotted, plain, literal, bare, ?_, ?_, dropped, ?_⟩
  · exact (wildcard _).mpr ⟨by decide, by decide⟩
  · rw [wildcard]
    decide
  · exact (kept _).mpr ⟨['a', '/', 'b'], rfl, by decide⟩

end Glob

end PathGlob
