import PathGlob.Proofs.Compilation.LiteralDirectories
import PathGlob.Proofs.Compilation.SpelledGlobstars

/-! Runs of asterisks. Two of them say as much as any more do, and one of them does where the run is
no globstar, whatever stands around it.
-/

namespace PathGlob

-----------------------------------------------------------------------------------------
-- Components that differ in a run of asterisks
-----------------------------------------------------------------------------------------

theorem TrailingDot.ofExpression_stars (options : Options) (left : Text) (count : Nat) (rest : Text)
    : ofExpression options (left ++ (List.replicate count '*' ++ '*' :: rest))
      = ofExpression options (left ++ '*' :: rest) := by
  rw [ofExpression, ofExpression, ← List.append_assoc, endsName_append_star, endsName_append_star]

section
variable {left rest : Text} {count : Nat}

theorem isStars_stars_iff (h : left ≠ [] ∨ rest ≠ [])
    : IsStars (left ++ (List.replicate count '*' ++ '*' :: rest))
      ↔ IsStars (left ++ '*' :: rest) := by
  have around : 0 < left.length + rest.length := by
    rw [Nat.add_pos_iff_pos_or_pos, List.length_pos_iff, List.length_pos_iff]
    exact h
  have enough : 2 ≤ left.length + (rest.length + 1) := by omega
  have more : 2 ≤ left.length + (count + (rest.length + 1)) := by omega
  simp [isStars_iff, enough, more, or_imp, forall_and]

theorem beginsWithStars_stars_iff (h : left ≠ [])
    : BeginsWithStars (left ++ (List.replicate count '*' ++ '*' :: rest))
      ↔ BeginsWithStars (left ++ '*' :: rest) := by
  unfold BeginsWithStars
  rcases left with _ | ⟨c, _ | ⟨d, left⟩⟩
  · exact absurd rfl h
  · cases count <;> simp [List.replicate_succ]
  · simp

end

/-- The parts of a component with wildcards, less their raw texts: a wildcard with the items of the
whole component, and a globstar in front of it if the component begins with one.
-/
theorem map_bare_ofName {name : Text} (hw : name.any isWildcard = true) (trailing : TrailingDot)
    (leadingGlobstar isLast : Bool)
    : ((Segment.ofName leadingGlobstar isLast name).map (Part.ofSegment trailing)).map Part.bare
      = (if leadingGlobstar = true ∧ BeginsWithStars name then
          [{ raw := [], kind := .globstar, items := [.globstar] }]
        else
          [])
        ++ [(Part.ofSegment trailing { raw := name, kind := .wildcard, isLast }).bare] := by
  rw [Segment.ofName_eq_ofComponent hw]
  by_cases hs : leadingGlobstar = true ∧ BeginsWithStars name
  · obtain ⟨rfl, hb⟩ := hs
    obtain ⟨count, rest, rfl, hr⟩ := hb.exists_eq
    have own : Segment.items trailing { raw := '*' :: rest, kind := .wildcard, isLast } = _ :=
      (Segment.items_stars [] (count + 1) rest trailing isLast).symm
    rw [if_pos ⟨rfl, hb⟩, Segment.ofComponent_stars hr]
    simp only [List.map_cons, List.map_nil, Part.ofSegment, Part.bare, own]
    rfl
  · rw [if_neg hs, Segment.ofComponent_whole fun hl hb => hs ⟨hl, hb⟩, Kind.ofComponent, if_pos hw]
    rfl

/-- A component has the same parts with one asterisk in place of a run of them, if the run does not
begin it or may not be a globstar.
-/
theorem map_bare_ofName_stars {left : Text} {leadingGlobstar : Bool}
    (h : left ≠ [] ∨ leadingGlobstar = false) (count : Nat) (rest : Text) (trailing : TrailingDot)
    (isLast : Bool)
    : ((Segment.ofName leadingGlobstar isLast
            (left ++ (List.replicate count '*' ++ '*' :: rest))).map
          (Part.ofSegment trailing)).map Part.bare
      = ((Segment.ofName leadingGlobstar isLast (left ++ '*' :: rest)).map
          (Part.ofSegment trailing)).map Part.bare := by
  have leading
      : (leadingGlobstar = true
          ∧ BeginsWithStars (left ++ (List.replicate count '*' ++ '*' :: rest)))
        ↔ leadingGlobstar = true ∧ BeginsWithStars (left ++ '*' :: rest) := by
    rcases h with h | rfl
    · rw [beginsWithStars_stars_iff h]
    · simp
  have same := Segment.items_stars left count rest trailing isLast
  rw [map_bare_ofName (by simp [isWildcard]), map_bare_ofName (by simp [isWildcard])]
  simp only [leading, Part.ofSegment, Part.bare, same]

-----------------------------------------------------------------------------------------
-- Expressions that differ in a run of asterisks
-----------------------------------------------------------------------------------------

theorem isName_stars {left rest : Text} (hl : IsName left) (hr : IsName rest) (count : Nat)
    : IsName (left ++ (List.replicate count '*' ++ '*' :: rest)) := by
  have star : isSeparator '*' = false := rfl
  refine hl.append (IsName.append (fun c hc => ?_) (isName_cons_iff.mpr ⟨star, hr⟩))
  rw [List.eq_of_mem_replicate hc, star]

/-- Parts less their raw texts are the same with one asterisk in place of a run of them. The run
must be behind another part of its component, or be no globstar for want of the flag and of a
separator behind it.
-/
theorem map_bare_parts_stars {options : Options} {left right : Text}
    (h : ¬EndsComponent left
      ∨ options.leadingGlobstar = false ∧ ∀ c ∈ right.head?, isSeparator c = false)
    (count : Nat)
    : (parts options (left ++ (List.replicate count '*' ++ '*' :: right))).map Part.bare
      = (parts options (left ++ '*' :: right)).map Part.bare := by
  obtain ⟨front, opening, rfl, hf, ho⟩ := exists_eq_endsComponent_append left
  have inside : opening ≠ []
      ∨ options.leadingGlobstar = false ∧ ∀ c ∈ right.head?, isSeparator c = false := by
    refine h.imp_left fun hl he => hl ?_
    rwa [he, List.append_nil]
  have leading := inside.imp_right And.left
  rw [List.append_assoc, List.append_assoc, parts_append options hf, parts_append options hf,
    List.map_append, List.map_append]
  refine congrArg _ ?_
  rcases Delimiters.isWord_or_closed .separators right
    with hr | ⟨closing, separator, rest, rfl, hc, hs⟩
  · have one : IsName (opening ++ '*' :: right) := isName_stars ho hr 0
    rw [parts, parts, segments_name _ (isName_stars ho hr count), segments_name _ one,
      TrailingDot.ofExpression_stars]
    exact map_bare_ofName_stars leading count right _ true
  · have around : opening ≠ [] ∨ closing ≠ [] := by
      refine inside.imp_right fun hl he => ?_
      subst he
      have := hl.2 separator rfl
      simp_all [Delimiters.contains]
    have one : IsName (opening ++ '*' :: closing) := isName_stars ho hc 0
    have regroup (run : Text)
        : opening ++ (run ++ '*' :: (closing ++ separator :: rest))
          = opening ++ (run ++ '*' :: closing) ++ separator :: rest := by
      simp
    have single := regroup []
    simp only [List.nil_append] at single
    rw [regroup, single, parts_closed options rest (isName_stars ho hc count) hs,
      parts_closed options rest one hs, Segment.ofClosed, Segment.ofClosed,
      if_congr (isStars_stars_iff around) rfl rfl]
    split
    next => rfl
    next =>
      have own := map_bare_ofName_stars leading count closing .literal false
      simp only [List.map_append] at own ⊢
      rw [own]

/-- The expressions have the same glob and parts of the same kinds. -/
structure IsReadAs (options : Options) (expression other : Text) : Prop where
  glob : Glob.compile options expression = Glob.compile options other
  kinds : (parts options expression).map Part.kind = (parts options other).map Part.kind

/-- An expression is read as the one with one asterisk in place of a run of them, since the base
path ends in front of either.
-/
theorem isReadAs_star {options : Options} {left right : Text}
    (h : ¬EndsComponent left
      ∨ options.leadingGlobstar = false ∧ ∀ c ∈ right.head?, isSeparator c = false)
    (count : Nat)
    : IsReadAs options (left ++ List.replicate (count + 1) '*' ++ right)
        (left ++ ['*'] ++ right) := by
  have run : left ++ List.replicate (count + 1) '*' ++ right
      = left ++ (List.replicate count '*' ++ '*' :: right) := by
    simp [List.replicate_succ']
  have same := map_bare_parts_stars h count
  rw [← run, List.append_cons] at same
  refine ⟨Glob.ofParts_congr same ?_ options.anchored, ?_⟩
  · change (Glob.compile options _).basePath = (Glob.compile options _).basePath
    rw [List.append_assoc, List.append_assoc, List.replicate_succ, List.cons_append,
      List.singleton_append, Glob.basePath_append_wildcard options rfl,
      Glob.basePath_append_wildcard options rfl]
  · have kinds := congrArg (List.map Part.kind) same
    rw [List.map_map, List.map_map] at kinds
    exact kinds

/-- Runs of asterisks collapse. An expression with a run of two or more has the glob, and parts of
the kinds, that it has with two of them; with one of them if the run is behind another part of its
component; and, without the flag for leading globstars, with one of them unless a separator follows.
-/
theorem Glob.compile_starRun (options : Options) (left right : Text) (count : Nat)
    : IsReadAs options (left ++ List.replicate (count + 2) '*' ++ right)
          (left ++ ['*', '*'] ++ right)
      ∧ (¬EndsComponent left
        → IsReadAs options (left ++ List.replicate (count + 1) '*' ++ right)
            (left ++ ['*'] ++ right))
      ∧ (options.leadingGlobstar = false
        → (∀ c ∈ right.head?, isSeparator c = false)
        → IsReadAs options (left ++ List.replicate (count + 1) '*' ++ right)
            (left ++ ['*'] ++ right)) := by
  refine ⟨?_, fun hl => isReadAs_star (Or.inl hl) count,
    fun hf hr => isReadAs_star (Or.inr ⟨hf, hr⟩) count⟩
  -- All asterisks but the first one are behind it in its component.
  have behind : ¬EndsComponent (left ++ ['*']) := by
    simp [EndsComponent, isSeparator]
  have rest := @isReadAs_star options (left ++ ['*']) right (Or.inl behind) count
  rw [List.replicate_succ, List.append_cons]
  rwa [List.append_assoc left ['*'] ['*']] at rest

/-- A run behind a name is one asterisk, and so is a run in front of a name if it is no globstar; a
separator behind a run at the start of a component makes the difference.
-/
theorem Glob.compile_starRun_around_name
    : let unflagged : Options := { leadingGlobstar := false }
      ¬EndsComponent ['a']
      ∧ IsReadAs {} ['a', '*', '*', '*', '/'] ['a', '*', '/']
      ∧ (∀ c ∈ (['a'] : Text).head?, isSeparator c = false)
      ∧ IsReadAs unflagged ['*', '*', '*', 'a'] ['*', 'a']
      ∧ compile unflagged ['*', '*', '/'] ≠ compile unflagged ['*', '/'] := by
  intro unflagged
  have name : ¬EndsComponent ['a'] := by simp [EndsComponent, isSeparator]
  have first : ∀ c ∈ (['a'] : Text).head?, isSeparator c = false := by simp [isSeparator]
  obtain ⟨-, behind, -⟩ := compile_starRun {} ['a'] ['/'] 2
  obtain ⟨-, -, front⟩ := compile_starRun unflagged [] ['a'] 2
  exact ⟨name, behind name, first, front rfl first, by decide⟩

end PathGlob
