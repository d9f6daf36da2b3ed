import PathGlob.Proofs.Compilation.PartDependence
import PathGlob.Proofs.Segmentation.CanonicalPieces
import PathGlob.Proofs.Segmentation.LastComponent

/-! What each flag changes. The flags for a trailing dot change what the last part accepts, where a
dot ends a name, and the flag for whole paths changes nothing but the ends of patterns.
-/

namespace PathGlob

-----------------------------------------------------------------------------------------
-- Parts under two rules for a trailing dot
-----------------------------------------------------------------------------------------

/-- The parts have the same raw texts and kinds, and all but the last one accept the same. -/
structure AgreeUpToLast (left right : List Part) : Prop where
  pieces : left.map Part.piece = right.map Part.piece
  others : left.dropLast = right.dropLast

/-- Only the segment that ends the list can be the last one of the expression. -/
theorem isLast_of_mem_dropLast {leadingGlobstar : Bool} {expression : Text} {segment : Segment}
    (hm : segment ∈ (segments leadingGlobstar expression).dropLast)
    : segment.isLast = false := by
  obtain ⟨front, name, rfl, hf, hn⟩ := exists_eq_endsComponent_append expression
  by_cases he : name = []
  · rw [he, List.append_nil] at hm
    exact isLast_of_endsComponent hf ((List.dropLast_sublist _).subset hm)
  · obtain ⟨others, final, hs, ho, -, -⟩ := @exists_ofName_eq_append leadingGlobstar name he
    rw [segments_append _ hf, segments_name _ hn, hs, ← List.append_assoc,
      List.dropLast_concat] at hm
    rcases List.mem_append.mp hm with hm | hm
    · exact isLast_of_endsComponent hf hm
    · exact ho segment hm

/-- A segment with wildcards loses its dot whatever the rule is for those without. -/
theorem Segment.items_of_not_plain {segment : Segment} (hk : segment.kind ≠ .plain)
    (left right : Bool)
    : segment.items (.noExtension left) = segment.items (.noExtension right) := by
  unfold Segment.items
  cases h : segment.kind with
  | plain => exact absurd h hk
  | pathSeparator | globstar | wildcard => cases segment.isLast <;> rfl

section
variable (leadingGlobstar : Bool) (expression : Text)

/-- No rule for a trailing dot changes more than what the last part accepts. -/
theorem agreeUpToLast_ofSegment (left right : TrailingDot)
    : AgreeUpToLast ((segments leadingGlobstar expression).map (Part.ofSegment left))
        ((segments leadingGlobstar expression).map (Part.ofSegment right)) where
  pieces := by
    rw [List.map_map, List.map_map]
    rfl
  others := by
    rw [← List.map_dropLast, ← List.map_dropLast]
    refine List.map_congr_left fun segment hm => ?_
    have inner := isLast_of_mem_dropLast hm
    rw [Part.ofSegment, Part.ofSegment, Segment.items_of_not_last inner left,
      Segment.items_of_not_last inner right]

/-- The rule for last parts without wildcards matters to these alone. -/
theorem map_ofSegment_noExtension
    (hk : ∀ last ∈ (segments leadingGlobstar expression).getLast?, last.kind ≠ .plain)
    (left right : Bool)
    : (segments leadingGlobstar expression).map (Part.ofSegment (.noExtension left))
      = (segments leadingGlobstar expression).map (Part.ofSegment (.noExtension right)) := by
  have others := (agreeUpToLast_ofSegment leadingGlobstar expression (.noExtension left)
    (.noExtension right)).others
  rcases List.eq_nil_or_concat (segments leadingGlobstar expression) with hs | ⟨front, last, hs⟩
  · rw [hs]
    rfl
  · rw [hs, List.concat_eq_append] at hk others ⊢
    simp only [List.map_append, List.map_singleton, List.dropLast_concat] at others ⊢
    have own := Segment.items_of_not_plain (hk last (by simp)) left right
    rw [others, Part.ofSegment, Part.ofSegment, own]

end

/-- The flag for last parts without wildcards has no effect without the flag for wildcards, or on
any other last part.
-/
theorem parts_set_literalDot {options : Options} {expression : Text}
    (h : options.wildcardDot = false
      ∨ ∀ last ∈ (parts options expression).getLast?, last.kind ≠ .plain)
    (value : Bool)
    : parts (options.set .literalDot value) expression = parts options expression := by
  rw [parts, parts, TrailingDot.ofExpression, TrailingDot.ofExpression]
  change (segments options.leadingGlobstar expression).map (Part.ofSegment
    (if options.wildcardDot && TrailingDot.endsName expression then _ else _)) = _
  split
  next ha =>
    rcases h with h | h
    · simp [h] at ha
    · refine map_ofSegment_noExtension _ _ (fun last hl => ?_) _ _
      refine h (Part.ofSegment (.ofExpression options expression) last) ?_
      rw [parts, List.getLast?_map, Option.mem_def.mp hl]
      rfl
  next => rfl

-----------------------------------------------------------------------------------------
-- Patterns for whole paths
-----------------------------------------------------------------------------------------

/-- Anchors are written in front of a pattern and behind it. -/
theorem Regex.text_anchored (lead stem : List Term)
    : text { anchored := true, lead, stem }
      = ['^'] ++ text { anchored := false, lead, stem } ++ ['$'] := by
  simp [text, body]

namespace Glob

/-- Anchors change nothing of a glob but the ends of its patterns. -/
theorem ofParts_anchored (parts : List Part)
    : ofParts true parts
      = {
          basePath := (ofParts false parts).basePath
          pattern := ['^'] ++ (ofParts false parts).pattern ++ ['$']
          stemPattern := ['^'] ++ (ofParts false parts).stemPattern ++ ['$']
        } := by
  rw [ofParts, Glob.mk.injEq]
  exact ⟨rfl, Regex.text_anchored _ _, Regex.text_anchored _ _⟩

/-- Each flag affects only what it names. Without the flag for leading globstars, options change
what the last part accepts and nothing else of the parts, and that only where a single dot ends a
name; the flag for last parts without wildcards has no effect but on these, and none without the
flag for wildcards. Patterns for whole paths are those for any others between anchors.
-/
theorem compile_flags {options others : Options}
    (h : others.leadingGlobstar = options.leadingGlobstar) (expression : Text)
    : AgreeUpToLast (parts others expression) (parts options expression)
      ∧ ((¬∃ front, expression = front ++ ['.'] ∧ AllowsDot front)
        → parts others expression = parts options expression)
      ∧ (options.wildcardDot = false
          ∨ (∀ last ∈ (parts options expression).getLast?, last.kind ≠ .plain)
        → ∀ value,
          parts (options.set .literalDot value) expression = parts options expression
          ∧ compile (options.set .literalDot value) expression = compile options expression)
      ∧ (∀ value, parts (options.set .anchored value) expression = parts options expression)
      ∧ let free := compile (options.set .anchored false) expression
        compile (options.set .anchored true) expression
        = {
            basePath := free.basePath
            pattern := ['^'] ++ free.pattern ++ ['$']
            stemPattern := ['^'] ++ free.stemPattern ++ ['$']
          } := by
  refine ⟨?_, ?_, ?_, fun value => rfl, ofParts_anchored _⟩
  · rw [parts, parts, h]
    exact agreeUpToLast_ofSegment ..
  · intro hd
    rw [parts, parts, h, TrailingDot.ofExpression_of_inactive (Or.inr hd),
      TrailingDot.ofExpression_of_inactive (Or.inr hd)]
  · intro hl value
    have same := parts_set_literalDot hl value
    refine ⟨same, ?_⟩
    rw [compile_eq_ofParts, compile_eq_ofParts, same]
    rfl

/-- A dot that ends a name in front of the last one, and a dot that ends the last name. -/
theorem compile_flags_of_dots
    : let others : Options := { wildcardDot := false, anchored := false }
      others.leadingGlobstar = ({} : Options).leadingGlobstar
      ∧ AgreeUpToLast (parts others ['a', '.', '/', '?', '.'])
          (parts {} ['a', '.', '/', '?', '.'])
      ∧ parts others ['a', '.', '/', '?', '.'] ≠ parts {} ['a', '.', '/', '?', '.']
      ∧ parts others ['a', '.', '/', '?'] = parts {} ['a', '.', '/', '?']
      ∧ compile (Options.set {} .literalDot false) ['a', '.', '/', '?', '.']
        = compile {} ['a', '.', '/', '?', '.'] := by
  intro others
  have undotted : ¬∃ front, ['a', '.', '/', '?'] = front ++ ['.'] ∧ AllowsDot front := by
    intro h
    obtain ⟨front, he, -⟩ := h
    have last := congrArg List.getLast? he
    rw [List.getLast?_concat] at last
    cases last
  have same : others.leadingGlobstar = ({} : Options).leadingGlobstar := rfl
  obtain ⟨agree, -, literal, -⟩ := compile_flags same ['a', '.', '/', '?', '.']
  obtain ⟨-, equal, -⟩ := compile_flags same ['a', '.', '/', '?']
  refine ⟨same, agree, by decide, equal undotted, (literal (Or.inr ?_) false).2⟩
  decide

end Glob

end PathGlob
