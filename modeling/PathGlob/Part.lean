import PathGlob.Item
import PathGlob.Segment
import PathGlob.TrailingDot

/-! The parts of a glob expression: its segments with the items that each of them is made
of. Only the last segment can take part in the rule for a trailing dot.
-/

namespace PathGlob

namespace Segment

/-- The items of a segment under the rule for a trailing dot. -/
def items (trailing : TrailingDot) (segment : Segment) : List Item :=
  match segment.kind with
  | .pathSeparator => [.separator]
  | .globstar => [.globstar]
  | .wildcard =>
      -- The rule drops the dot and keeps dots out of the wildcards, or does neither.
      match segment.isLast, trailing with
      | true, .noExtension _ => Item.ofWildcard true segment.raw.withoutDot
      | _, _ => Item.ofWildcard false segment.raw
  | .plain =>
      match segment.isLast, trailing with
      | true, .noExtension true => Item.ofLiteral segment.raw.withoutDot
      | _, _ => Item.ofLiteral segment.raw

end Segment

/-- A raw piece of a glob expression, its kind, and what it accepts. -/
structure Part where
  raw : Text
  kind : Kind
  items : List Item
deriving DecidableEq

namespace Part

/-- The part that a segment becomes. -/
def ofSegment (trailing : TrailingDot) (segment : Segment) : Part where
  raw := segment.raw
  kind := segment.kind
  items := segment.items trailing

/-- The terms of a regular expression that accept what the part does. -/
def terms (part : Part) : List Term :=
  part.items.map Item.term

/-- The written form of the part's terms. -/
def pattern (part : Part) : Text :=
  part.terms.flatMap Term.text

end Part

/-- The parts of a glob expression in order. -/
def parts (options : Options) (expression : Text) : List Part :=
  let trailing := TrailingDot.ofExpression options expression
  (segments options.leadingGlobstar expression).map (Part.ofSegment trailing)

/-- The raw pieces of the parts join to the expression, as those of its segments do. -/
@[simp]
theorem flatMap_raw_parts (options : Options) (expression : Text)
    : (parts options expression).flatMap Part.raw = expression := by
  rw [parts, List.flatMap_map]
  exact flatMap_raw_segments ..

end PathGlob
