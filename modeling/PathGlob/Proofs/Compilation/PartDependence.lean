import Mathlib.Data.List.TakeWhile
import PathGlob.Glob

/-! What a compiled glob depends on: the kinds and the items of its parts, and the raw texts of
those of its base path alone.
-/

namespace PathGlob

/-- The part without its raw text. -/
def Part.bare (part : Part) : Part :=
  { part with raw := [] }

section
variable {change : Part → Part} (hk : ∀ part, (change part).kind = part.kind)
include hk

/-- The base path ends at the same part whatever is changed about parts but their kinds. -/
theorem baseParts_map (parts : List Part)
    : baseParts (parts.map change) = (baseParts parts).map change := by
  simp only [baseParts, List.takeWhile_map, ← List.map_reverse, List.dropWhile_map,
    Function.comp_def, hk]

theorem stemParts_map (parts : List Part)
    : stemParts (parts.map change) = (stemParts parts).map change := by
  rw [stemParts, stemParts, baseParts_map hk, List.length_map, List.map_drop]

end

theorem isVariant_of_mem_baseParts {parts : List Part} {part : Part} (hm : part ∈ baseParts parts)
    : part.kind.isVariant = false := by
  rw [baseParts, List.mem_reverse] at hm
  have invariant := (List.dropWhile_suffix _).subset hm
  rw [List.mem_reverse] at invariant
  simpa using List.all_eq_true.mp List.all_takeWhile _ invariant

/-- A glob that begins with a variant part has no base path. -/
theorem baseParts_of_isVariant {first : Part} (h : first.kind.isVariant = true) (parts : List Part)
    : baseParts (first :: parts) = [] := by
  simp [baseParts, h]

theorem baseParts_of_no_separator {parts : List Part}
    (h : ∀ part ∈ parts, part.kind ≠ .pathSeparator)
    : baseParts parts = [] := by
  rw [baseParts, List.reverse_eq_nil_iff, List.dropWhile_eq_nil_iff]
  intro part hm
  have member := (List.takeWhile_prefix _).subset (List.mem_reverse.mp hm)
  simpa using h part member

/-- Invariant parts that a separator closes go in front of the base path of the others. -/
theorem baseParts_closed {front : List Part} (hf : ∀ part ∈ front, part.kind.isVariant = false)
    {separator : Part} (hs : separator.kind = .pathSeparator) (parts : List Part)
    : baseParts (front ++ separator :: parts) = front ++ separator :: baseParts parts := by
  have kept : (front ++ separator :: parts).takeWhile (fun part => !part.kind.isVariant)
      = front ++ separator :: parts.takeWhile fun part => !part.kind.isVariant := by
    rw [List.takeWhile_append_of_pos (by simpa using hf), List.takeWhile_cons_of_pos]
    rw [hs]
    rfl
  have last (others : List Part)
      : (others ++ separator :: front.reverse).dropWhile (fun part => part.kind != .pathSeparator)
        = others.dropWhile (fun part => part.kind != .pathSeparator)
          ++ separator :: front.reverse := by
    rw [List.dropWhile_append]
    split
    next he => simp [List.isEmpty_iff.mp he, hs]
    next => rfl
  simp only [baseParts, kept, List.reverse_append, List.reverse_cons, List.append_assoc,
    List.singleton_append, last, List.reverse_reverse]

/-- A part behind the others belongs to the stem, unless it is a separator. -/
theorem baseParts_append_singleton (parts : List Part) {last : Part}
    (h : last.kind ≠ .pathSeparator)
    : baseParts (parts ++ [last]) = baseParts parts := by
  simp only [baseParts, List.takeWhile_append]
  split
  next hl =>
    have all : parts.takeWhile (fun part => !part.kind.isVariant) = parts :=
      (List.takeWhile_prefix _).eq_of_length hl
    rw [all]
    by_cases hv : last.kind.isVariant = true <;> simp [hv, h]
  next => rfl

/-- Parts of the same kinds and items have the same regular expression, as it is made without their
raw texts.
-/
theorem Regex.ofParts_congr {left right : List Part} (h : left.map Part.bare = right.map Part.bare)
    {anchored : Bool}
    : ofParts anchored left = ofParts anchored right := by
  have kept (part : Part) : part.bare.kind = part.kind := rfl
  have bared (parts : List Part)
      : ofParts anchored (parts.map Part.bare) = ofParts anchored parts := by
    rw [ofParts, baseParts_map kept, stemParts_map kept, List.flatMap_map, List.flatMap_map]
    rfl
  rw [← bared left, h, bared right]

namespace Glob

/-- The glob of parts, which are those of its base path and of its stem. -/
def ofParts (anchored : Bool) (parts : List Part) : Glob where
  basePath := (baseParts parts).flatMap Part.raw
  pattern := (Regex.ofParts anchored parts).text
  stemPattern := (Regex.ofParts anchored parts).stemOnly.text

theorem compile_eq_ofParts (options : Options) (expression : Text)
    : compile options expression = ofParts options.anchored (parts options expression) :=
  rfl

/-- Parts of the same kinds and items have the same glob if their base paths are the same. -/
theorem ofParts_congr {left right : List Part} (h : left.map Part.bare = right.map Part.bare)
    (hb : (baseParts left).flatMap Part.raw = (baseParts right).flatMap Part.raw)
    (anchored : Bool)
    : ofParts anchored left = ofParts anchored right := by
  rw [ofParts, ofParts, Regex.ofParts_congr h, hb]

end Glob

end PathGlob
