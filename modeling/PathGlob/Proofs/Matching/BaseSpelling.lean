import PathGlob.Proofs.Compilation.PartDependence
import PathGlob.Proofs.Matching.Acceptance
import PathGlob.Proofs.Segmentation.Slashes

/-! The base path of a glob as its items spell it. They repeat nothing, and what they consume is
the base path with its separators written in any way.
-/

namespace PathGlob

-----------------------------------------------------------------------------------------
-- Items that spell a text
-----------------------------------------------------------------------------------------

/-- Items that repeat nothing and consume the texts that are equal to the given one up to their
separators.
-/
def Spells (items : List Item) (base : Text) : Prop :=
  ∀ counts text, Consumes items counts text ↔ counts = [] ∧ withSlashes text = withSlashes base

/-- Texts that the same items spell are equal up to their separators. -/
theorem Spells.withSlashes_eq {items : List Item} {left right : Text} (hl : Spells items left)
    (hr : Spells items right)
    : withSlashes left = withSlashes right :=
  ((hr [] left).mp ((hl [] left).mpr ⟨rfl, rfl⟩)).2

theorem spells_nil : Spells [] [] := by
  intro counts text
  constructor
  · intro h
    cases h
    exact ⟨rfl, rfl⟩
  · intro h
    obtain ⟨rfl, ht⟩ := h
    obtain rfl : text = [] := List.map_eq_nil_iff.mp ht
    exact .nil

/-- Appended items spell what either list of them does. -/
theorem Spells.append {left right : List Item} {first second : Text} (hl : Spells left first)
    (hr : Spells right second)
    : Spells (left ++ right) (first ++ second) := by
  intro counts text
  rw [consumes_append_iff]
  constructor
  · intro h
    obtain ⟨_, _, head, tail, rfl, rfl, hf, hs⟩ := h
    obtain ⟨rfl, front⟩ := (hl _ _).mp hf
    obtain ⟨rfl, rear⟩ := (hr _ _).mp hs
    exact ⟨rfl, by rw [withSlashes_append, front, rear, withSlashes_append]⟩
  · intro h
    obtain ⟨rfl, ht⟩ := h
    rw [withSlashes_append] at ht
    obtain ⟨head, tail, rfl, hf, hs⟩ := List.map_eq_append_iff.mp ht
    exact ⟨[], [], head, tail, rfl, rfl, (hl _ _).mpr ⟨rfl, hf⟩, (hr _ _).mpr ⟨rfl, hs⟩⟩

theorem spells_literal {c : Char} (hc : isSeparator c = false) : Spells [.literal c] [c] := by
  intro counts text
  constructor
  · intro h
    cases h with
    | cons first others =>
        cases first
        cases others
        exact ⟨rfl, rfl⟩
  · intro h
    obtain ⟨rfl, ht⟩ := h
    have name : IsName [c] := by simpa [IsName] using hc
    obtain rfl := (withSlashes_eq_name_iff name).mp ht
    exact .cons (.literal c) .nil

theorem spells_separator {c : Char} (hc : isSeparator c = true) : Spells [.separator] [c] := by
  intro counts text
  constructor
  · intro h
    cases h with
    | cons first others =>
        cases others
        cases first with
        | separator hd =>
            have same := slashed_eq_iff.mpr (Or.inr ⟨hd, hc⟩)
            exact ⟨rfl, congrArg (fun d => [d]) same⟩
  · intro h
    obtain ⟨rfl, ht⟩ := h
    obtain ⟨d, rfl, hd⟩ := List.map_eq_singleton_iff.mp ht
    have separates : isSeparator d = true := by
      rw [← isSeparator_slashed, hd, isSeparator_slashed, hc]
    exact .cons (.separator separates) .nil

/-- What accepts a character of a directory: either separator for one, and itself for any other. -/
def Item.ofCharacter (c : Char) : Item :=
  if isSeparator c then separator else literal c

/-- The items of its characters spell a text, by induction on it. -/
theorem spells_map (text : Text) : Spells (text.map Item.ofCharacter) text := by
  induction text with
  | nil => exact spells_nil
  | cons c text ih =>
      have first : Spells [Item.ofCharacter c] [c] := by
        rw [Item.ofCharacter]
        split
        next hc => exact spells_separator hc
        next hc => exact spells_literal (Bool.eq_false_iff.mpr hc)
      exact first.append ih

-----------------------------------------------------------------------------------------
-- The parts of the base path
-----------------------------------------------------------------------------------------

/-- A name has the items of its characters, as none of these is a separator. -/
theorem ofLiteral_eq_map {name : Text} (hn : IsName name)
    : Item.ofLiteral name = name.map Item.ofCharacter := by
  refine List.map_congr_left fun c hm => ?_
  rw [Item.ofCharacter, hn c hm, if_neg Bool.false_ne_true]

/-- An invariant part is read character by character, unless a rule for a trailing dot applies to
it.
-/
theorem reading_eq_map {options : Options} {expression : Text} {part : Part}
    (hm : part ∈ parts options expression) (hv : part.kind.isVariant = false)
    : part.reading .literal = part.raw.map Item.ofCharacter := by
  obtain ⟨segment, hs, rfl⟩ := List.mem_map.mp hm
  have shape := hasShape_of_mem_segments hs
  unfold Segment.HasShape at shape
  unfold Part.reading
  cases hk : segment.kind with
  | pathSeparator =>
      simp only [hk] at shape
      obtain ⟨separator, hr, hc⟩ := shape
      simp [Part.ofSegment, hk, hr, Item.ofCharacter, hc]
  | plain =>
      simp only [hk] at shape
      simp only [Part.ofSegment, hk]
      exact ofLiteral_eq_map shape
  | wildcard => simp [Part.ofSegment, hk, Kind.isVariant] at hv
  | globstar => simp [Part.ofSegment, hk, Kind.isVariant] at hv

/-- A base path is empty or ends with a separator. -/
theorem kind_of_getLast?_baseParts {parts : List Part} {last : Part}
    (h : (baseParts parts).getLast? = some last)
    : last.kind = .pathSeparator := by
  rw [baseParts, List.getLast?_reverse] at h
  have kept := List.head?_dropWhile_not (fun part : Part => part.kind != .pathSeparator)
    (parts.takeWhile fun part => !part.kind.isVariant).reverse
  rw [h] at kept
  simpa using kept

/-- Parts up to a separator are read without the rule for a trailing dot. -/
theorem take_readings (trailing : TrailingDot) (first : List Part) {last : Part}
    (hk : last.kind = .pathSeparator) (later : List Part)
    : (readings trailing (first ++ [last] ++ later)).take (first ++ [last]).length
      = (first ++ [last]).map (Part.reading .literal) := by
  have head : ∃ others, readings trailing (last :: later) = last.reading .literal :: others := by
    cases later with
    | nil => exact ⟨[], by simp only [readings, Part.reading, hk]⟩
    | cons next later => exact ⟨_, rfl⟩
  obtain ⟨others, ho⟩ := head
  have whole : readings trailing (first ++ [last] ++ later)
      = (first ++ [last]).map (Part.reading .literal) ++ others := by
    rw [List.append_assoc, readings_append _ _ (by simp), List.singleton_append, ho]
    simp
  rw [whole]
  exact List.take_left' (by simp)

/-- The parts of the base path are read without the rule for a trailing dot, since the last of
them is a separator.
-/
theorem leadReading_eq_literal (options : Options) (expression : Text)
    : leadReading options expression
      = (baseParts (parts options expression)).flatMap (Part.reading .literal) := by
  have cut := baseParts_append_stemParts (parts options expression)
  simp only [leadReading]
  conv => lhs; arg 1; arg 2; arg 2; rw [← cut]
  rcases List.eq_nil_or_concat (baseParts (parts options expression)) with hb | ⟨first, last, hb⟩
  · rw [hb]
    rfl
  · rw [List.concat_eq_append] at hb
    have separator := @kind_of_getLast?_baseParts (parts options expression) last (by simp [hb])
    rw [hb, take_readings _ _ separator, List.flatMap_def]

/-- The items of the base path of a glob are those of its characters. -/
theorem leadReading_eq_map (options : Options) (expression : Text)
    : leadReading options expression
      = (Glob.compile options expression).basePath.map Item.ofCharacter := by
  change _ = ((baseParts (parts options expression)).flatMap Part.raw).map Item.ofCharacter
  rw [leadReading_eq_literal, List.map_flatMap]
  refine List.flatMap_congr fun part hm => ?_
  have member : part ∈ parts options expression := by
    rw [← baseParts_append_stemParts (parts options expression)]
    exact List.mem_append_left _ hm
  exact reading_eq_map member (isVariant_of_mem_baseParts hm)

/-- The items of the base path of a glob spell it. -/
theorem spells_basePath (options : Options) (expression : Text)
    : Spells (leadReading options expression) (Glob.compile options expression).basePath := by
  rw [leadReading_eq_map]
  exact spells_map _

end PathGlob
