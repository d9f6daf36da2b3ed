import PathGlob.Part
import PathGlob.Proofs.Segmentation.ComponentSegments

/-! The parts of a glob expression compose where a component ends. The rule for a trailing dot
looks at the end of the whole expression, but only the last component can be subject to it.
-/

namespace PathGlob

/-- A segment that is not the last one has the same items under every rule. -/
theorem Segment.items_of_not_last {segment : Segment} (h : segment.isLast = false)
    (trailing : TrailingDot)
    : segment.items trailing = segment.items .literal := by
  unfold Segment.items
  rw [h]

namespace TrailingDot

theorem endsName_of_endsComponent {text : Text} (h : EndsComponent text)
    : endsName text = false := by
  cases hl : text.reverse with
  | nil => simp [endsName, hl]
  | cons c rest =>
      have hs : isSeparator c = true := h c (by rw [List.getLast?_eq_head?_reverse, hl]; rfl)
      have hc : c ≠ '.' := by
        intro he
        subst he
        simp [isSeparator] at hs
      unfold endsName
      rw [hl]
      split <;> simp_all

/-- Whether a text ends a name is decided after the last separator. -/
theorem endsName_append {left right : Text} (h : EndsComponent left) (hr : right ≠ [])
    : endsName (left ++ right) = endsName right := by
  unfold endsName
  rw [List.reverse_append]
  cases hl : right.reverse with
  | nil => simp [hr] at hl
  | cons c rest =>
      cases rest with
      | cons d rest => by_cases hc : c = '.' <;> simp [hc]
      | nil =>
          cases hp : left.reverse with
          | nil => rfl
          | cons d rest =>
              have hs : isSeparator d = true :=
                h d (by rw [List.getLast?_eq_head?_reverse, hp]; rfl)
              simp only [List.cons_append, List.nil_append]
              split <;> simp_all

theorem ofExpression_of_endsComponent (options : Options) {text : Text}
    (h : EndsComponent text)
    : ofExpression options text = .literal := by
  simp [ofExpression, endsName_of_endsComponent h]

theorem ofExpression_append (options : Options) {left : Text} (h : EndsComponent left)
    (right : Text)
    : ofExpression options (left ++ right) = ofExpression options right := by
  by_cases hr : right = []
  · subst hr
    have empty : EndsComponent [] := by simp [EndsComponent]
    rw [List.append_nil, ofExpression_of_endsComponent options h,
      ofExpression_of_endsComponent options empty]
  · rw [ofExpression, ofExpression, endsName_append h hr]

end TrailingDot

/-- An expression that ends a component has the same parts under every rule. -/
theorem parts_of_endsComponent (options : Options) {expression : Text}
    (h : EndsComponent expression) (trailing : TrailingDot)
    : (segments options.leadingGlobstar expression).map (Part.ofSegment trailing)
      = parts options expression := by
  rw [parts, TrailingDot.ofExpression_of_endsComponent options h]
  refine List.map_congr_left fun segment hm => ?_
  rw [Part.ofSegment, Part.ofSegment,
    Segment.items_of_not_last (isLast_of_endsComponent h hm) trailing]

/-- Parts compose where a component ends, in their raw texts, kinds and items. -/
theorem parts_append (options : Options) {left : Text} (h : EndsComponent left) (right : Text)
    : parts options (left ++ right) = parts options left ++ parts options right := by
  rw [← parts_of_endsComponent options h (.ofExpression options right), parts, parts,
    TrailingDot.ofExpression_append options h, segments_append _ h, List.map_append]

/-- The parts of a closed component come before those of what is left, and no rule for a trailing
dot applies to them.
-/
theorem parts_closed (options : Options) {name : Text} {separator : Char} (rest : Text)
    (hn : IsName name) (hs : isSeparator separator = true)
    : parts options (name ++ separator :: rest)
      = (Segment.ofClosed options.leadingGlobstar name separator).map (Part.ofSegment .literal)
        ++ parts options rest := by
  have ends := endsComponent_closed name hs
  have nothing : segments options.leadingGlobstar [] = [] := rfl
  rw [List.append_cons, parts_append options ends, ← parts_of_endsComponent options ends .literal,
    segments_closed _ _ hn hs, nothing, List.append_nil]

end PathGlob
