import PathGlob.Proofs.Compilation.PatternDecoding
import PathGlob.Proofs.Segmentation.CanonicalPieces

/-! Base paths as directories. The base path of an expression is the longest directory without
wildcards that the expression begins with, whatever the options, and no character of it is dropped.
-/

namespace PathGlob

-----------------------------------------------------------------------------------------
-- Directories without wildcards
-----------------------------------------------------------------------------------------

/-- The expression begins with the directory, which holds no wildcard and ends where a component
does.
-/
structure IsLiteralDirectory (expression directory : Text) : Prop where
  begins : directory <+: expression
  literal : ∀ c ∈ directory, isWildcard c = false
  ends : EndsComponent directory

/-- The literal directory of the expression that goes as far as any other. -/
structure IsLongestLiteralDirectory (expression directory : Text) : Prop where
  isDirectory : IsLiteralDirectory expression directory
  longest : ∀ other, IsLiteralDirectory expression other → other <+: directory

/-- No expression has two longest literal directories, since either goes on from the other. -/
theorem IsLongestLiteralDirectory.unique {expression left right : Text}
    (hl : IsLongestLiteralDirectory expression left)
    (hr : IsLongestLiteralDirectory expression right)
    : left = right :=
  (hr.longest left hl.isDirectory).eq_of_length_le (hl.longest right hr.isDirectory).length_le

theorem isLiteralDirectory_nil (expression : Text) : IsLiteralDirectory expression [] where
  begins := List.nil_prefix
  literal := by simp
  ends := by simp [EndsComponent]

/-- A name has no directory but the empty one. -/
theorem isLongestLiteralDirectory_name {name : Text} (hn : IsName name)
    : IsLongestLiteralDirectory name [] where
  isDirectory := isLiteralDirectory_nil name
  longest := by
    intro other h
    have inside : IsName other := fun c hm => hn c (h.begins.subset hm)
    exact inside.eq_nil h.ends ▸ List.nil_prefix

/-- What follows a wildcard belongs to no literal directory. -/
theorem isLiteralDirectory_append_wildcard_iff {wildcard : Char} (hw : isWildcard wildcard = true)
    {left right directory : Text}
    : IsLiteralDirectory (left ++ wildcard :: right) directory
      ↔ IsLiteralDirectory left directory := by
  refine ⟨fun h => { h with begins := ?_ }, fun h => { h with begins := ?_ }⟩
  · rcases List.prefix_or_prefix_of_prefix h.begins (List.prefix_append left (wildcard :: right))
      with hp | ⟨more, rfl⟩
    · exact hp
    · cases more with
      | nil => simp
      | cons c more =>
          obtain ⟨rest, he⟩ := h.begins
          rw [List.append_assoc] at he
          obtain rfl : c = wildcard := (List.cons.inj (List.append_cancel_left he)).1
          have literal := h.literal c (by simp)
          rw [hw] at literal
          cases literal
  · exact h.begins.trans (List.prefix_append ..)

/-- The longest literal directory is that of the text in front of the first wildcard. -/
theorem isLongestLiteralDirectory_append_wildcard_iff {wildcard : Char}
    (hw : isWildcard wildcard = true) {left right directory : Text}
    : IsLongestLiteralDirectory (left ++ wildcard :: right) directory
      ↔ IsLongestLiteralDirectory left directory := by
  have same {other : Text} := @isLiteralDirectory_append_wildcard_iff _ hw left right other
  exact
    ⟨fun h => ⟨same.mp h.isDirectory, fun other ho => h.longest other (same.mpr ho)⟩,
      fun h => ⟨same.mpr h.isDirectory, fun other ho => h.longest other (same.mp ho)⟩⟩

/-- A literal component that a separator closes goes in front of the directory of what is left. -/
theorem IsLongestLiteralDirectory.closed {name rest directory : Text} {separator : Char}
    (h : IsLongestLiteralDirectory rest directory) (hn : IsName name)
    (hp : ∀ c ∈ name, isWildcard c = false) (hs : isSeparator separator = true)
    : IsLongestLiteralDirectory (name ++ separator :: rest) (name ++ separator :: directory) := by
  have plain : isWildcard separator = false := by
    rw [isSeparator, Bool.or_eq_true, beq_iff_eq, beq_iff_eq] at hs
    rcases hs with rfl | rfl <;> rfl
  refine ⟨⟨?_, ?_, ?_⟩, ?_⟩
  · rw [List.prefix_append_right_inj, List.prefix_cons_inj]
    exact h.isDirectory.begins
  · intro c hc
    simp only [List.mem_append, List.mem_cons] at hc
    rcases hc with hc | rfl | hc
    · exact hp c hc
    · exact plain
    · exact h.isDirectory.literal c hc
  · rw [List.append_cons]
    exact (endsComponent_closed name hs).append h.isDirectory.ends
  · intro other ho
    by_cases inside : IsName other
    · exact inside.eq_nil ho.ends ▸ List.nil_prefix
    · -- It reaches beyond the name, so the separator and a directory of what is left are in it.
      rcases List.prefix_or_prefix_of_prefix ho.begins (List.prefix_append name _)
        with hb | ⟨tail, rfl⟩
      · exact absurd (fun c hm => hn c (hb.subset hm)) inside
      · rcases List.prefix_cons_iff.mp ((List.prefix_append_right_inj name).mp ho.begins)
          with rfl | ⟨more, rfl, hb⟩
        · exact absurd (by simpa using hn) inside
        · rw [List.prefix_append_right_inj, List.prefix_cons_inj]
          refine h.longest more ⟨hb, fun c hc => ho.literal c (by simp [hc]), ho.ends.rest⟩

-----------------------------------------------------------------------------------------
-- The base path
-----------------------------------------------------------------------------------------

namespace Glob

theorem basePath_name (options : Options) {name : Text} (hn : IsName name)
    : (compile options name).basePath = [] := by
  have no_separator : ∀ part ∈ parts options name, part.kind ≠ .pathSeparator := by
    intro part hm hk
    rw [parts, segments_name _ hn] at hm
    obtain ⟨segment, hs, rfl⟩ := List.mem_map.mp hm
    exact kind_ne_of_mem_ofName hs hk
  change (baseParts (parts options name)).flatMap Part.raw = []
  rw [baseParts_of_no_separator no_separator, List.flatMap_nil]

/-- A component with wildcards ends the base path in front of it. -/
theorem basePath_wildcard (options : Options) {name : Text} {separator : Char} (rest : Text)
    (hn : IsName name) (hw : name.any isWildcard = true) (hs : isSeparator separator = true)
    : (compile options (name ++ separator :: rest)).basePath = [] := by
  have variant : ∃ first later,
      Segment.ofClosed options.leadingGlobstar name separator = first :: later
      ∧ first.kind.isVariant = true := by
    rw [Segment.ofClosed]
    split
    next => exact ⟨_, _, rfl, rfl⟩
    next =>
      obtain ⟨first, later, he, hv⟩ :=
        Segment.exists_ofName_eq_cons hw options.leadingGlobstar false
      exact ⟨first, _, by rw [he]; rfl, hv⟩
  obtain ⟨first, later, he, hv⟩ := variant
  change (baseParts (parts options (name ++ separator :: rest))).flatMap Part.raw = []
  rw [parts_closed options rest hn hs, he, List.map_cons, List.cons_append,
    baseParts_of_isVariant hv, List.flatMap_nil]

/-- A literal component belongs to the base path if a separator closes it. -/
theorem basePath_closed (options : Options) {name : Text} {separator : Char} (rest : Text)
    (hn : IsName name) (hp : ∀ c ∈ name, isWildcard c = false) (hs : isSeparator separator = true)
    : (compile options (name ++ separator :: rest)).basePath
      = name ++ separator :: (compile options rest).basePath := by
  have front : ∃ front,
      (Segment.ofName options.leadingGlobstar false name).map (Part.ofSegment .literal) = front
      ∧ (∀ part ∈ front, part.kind.isVariant = false)
      ∧ front.flatMap Part.raw = name := by
    by_cases he : name = []
    · subst he
      exact ⟨[], rfl, by simp, rfl⟩
    · rw [Segment.ofName_plain he hp]
      exact ⟨_, rfl, by simp [Part.ofSegment, Kind.isVariant], by simp [Part.ofSegment]⟩
  obtain ⟨front, hf, invariant, raw⟩ := front
  change (baseParts (parts options (name ++ separator :: rest))).flatMap Part.raw = _
  rw [parts_closed options rest hn hs, Segment.ofClosed, if_neg (not_isStars_of_plain hp),
    List.map_append, hf, List.append_assoc, List.map_singleton, List.singleton_append,
    baseParts_closed invariant rfl, List.flatMap_append, raw]
  rfl

/-- The base path is the longest literal directory of the expression, by induction over its
components.
-/
theorem isLongestLiteralDirectory_basePath (options : Options) (expression : Text)
    : IsLongestLiteralDirectory expression (compile options expression).basePath := by
  induction expression using componentInduction with
  | last name hn =>
      rw [basePath_name options hn]
      exact isLongestLiteralDirectory_name hn
  | closed name separator rest hn hs ih =>
      by_cases hw : name.any isWildcard = true
      · rw [basePath_wildcard options rest hn hw hs]
        obtain ⟨wildcard, hm, hc⟩ := List.any_eq_true.mp hw
        obtain ⟨front, more, rfl⟩ := List.append_of_mem hm
        rw [List.append_assoc, List.cons_append, isLongestLiteralDirectory_append_wildcard_iff hc]
        exact isLongestLiteralDirectory_name fun c hm => hn c (List.mem_append_left _ hm)
      · have literal : ∀ c ∈ name, isWildcard c = false := by simpa using hw
        rw [basePath_closed options rest hn literal hs]
        exact ih.closed hn literal hs

/-- The base path depends on nothing behind the first wildcard. -/
theorem basePath_append_wildcard (options : Options) {wildcard : Char}
    (hw : isWildcard wildcard = true) (left right : Text)
    : (compile options (left ++ wildcard :: right)).basePath = (compile options left).basePath := by
  have whole := isLongestLiteralDirectory_basePath options (left ++ wildcard :: right)
  rw [isLongestLiteralDirectory_append_wildcard_iff hw] at whole
  exact whole.unique (isLongestLiteralDirectory_basePath options left)

-----------------------------------------------------------------------------------------
-- The base path in the pattern
-----------------------------------------------------------------------------------------

/-- What a pattern has for a character of the base path: the set of both separators for one, and the
character itself for any other, behind a backslash if it would mean something else.
-/
def characterPattern (c : Char) : Text :=
  if isSeparator c then ['[', '/', '\\', '\\', ']'] else CharSet.escape CharSet.metas c

theorem spelling_ofCharacter (c : Char) : (Item.ofCharacter c).spelling = characterPattern c := by
  rw [Item.ofCharacter, characterPattern]
  split <;> rfl

theorem spelling_leadReading (options : Options) (expression : Text)
    : (leadReading options expression).flatMap Item.spelling
      = (compile options expression).basePath.flatMap characterPattern := by
  rw [leadReading_eq_map, List.flatMap_map]
  exact List.flatMap_congr fun c _ => spelling_ofCharacter c

theorem spelling_stemReading (options : Options) (expression : Text)
    : (stemReading options expression).flatMap Item.spelling
      = (stemParts (parts options expression)).flatMap Part.pattern := by
  rw [stemReading_eq, List.flatMap_assoc]
  refine List.flatMap_congr fun part _ => ?_
  rw [Part.pattern, Part.terms, List.flatMap_map]
  exact List.flatMap_congr fun item _ => item.text_term.symm

/-- The base path is the longest directory without wildcards that the expression begins with, so it
is the same for all options. It leads up to the group in the pattern, with one step for each of its
characters, and the parts of the stem are in the group.
-/
theorem compile_basePath (options : Options) (expression : Text)
    : let glob := compile options expression
      IsLongestLiteralDirectory expression glob.basePath
      ∧ (∀ others, (compile others expression).basePath = glob.basePath)
      ∧ glob.pattern
        = (if options.anchored then ['^'] else [])
          ++ glob.basePath.flatMap characterPattern
          ++ ['(', '?', '<', 's', 't', 'e', 'm', '>']
          ++ (stemParts (parts options expression)).flatMap Part.pattern
          ++ [')']
          ++ (if options.anchored then ['$'] else []) := by
  intro glob
  have longest := isLongestLiteralDirectory_basePath options expression
  refine ⟨longest, fun others => ?_, ?_⟩
  · exact (isLongestLiteralDirectory_basePath others expression).unique longest
  · rw [← spelling_leadReading, ← spelling_stemReading]
    exact pattern_eq_spelled options expression

end Glob

end PathGlob
