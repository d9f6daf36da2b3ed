import Mathlib.Data.List.Basic
import PathGlob.Proofs.Compilation.PartDependence
import PathGlob.Proofs.Segmentation.LeadingStars
import PathGlob.Proofs.Segmentation.PartConcatenation

/-! Leading globstars spelled out as components of their own. An expression that relies on them has
the glob of the expression that spells them out, and matches no less than without them.
-/

namespace PathGlob

-----------------------------------------------------------------------------------------
-- Expressions with their leading globstars spelled out
-----------------------------------------------------------------------------------------

/-- The component with two or more leading asterisks written as a globstar of its own, in front of
a single asterisk.
-/
def spelledOutName (name : Text) : Text :=
  if 2 ≤ (name.takeWhile (· == '*')).length then
    ['*', '*', '/', '*'] ++ name.dropWhile (· == '*')
  else
    name

/-- What follows a separator is shorter than the text. -/
theorem length_lt_of_dropWhile_eq_cons {p : Char → Bool} {text rest : Text} {separator : Char}
    (h : text.dropWhile p = separator :: rest)
    : rest.length < text.length := by
  have shorter := (text.dropWhile_suffix p).length_le
  rw [h, List.length_cons] at shorter
  exact shorter

/-- The expression with the leading globstars of all its components spelled out. A component of
asterisks that a separator follows is a globstar already.
-/
def spelledOut (expression : Text) : Text :=
  let component := expression.takeWhile fun c => !isSeparator c
  match _ : expression.dropWhile fun c => !isSeparator c with
  | [] => spelledOutName component
  | separator :: rest =>
      (if IsStars component then component else spelledOutName component)
        ++ separator :: spelledOut rest
termination_by expression.length
decreasing_by exact length_lt_of_dropWhile_eq_cons ‹_›

theorem spelledOut_name {name : Text} (hn : IsName name)
    : spelledOut name = spelledOutName name := by
  have whole := @takeWhile_name_append name [] hn (by simp)
  have nothing := @dropWhile_name_append name [] hn (by simp)
  rw [List.append_nil] at whole nothing
  rw [spelledOut]
  split
  next => exact congrArg spelledOutName whole
  next he =>
    rw [nothing] at he
    cases he

theorem spelledOut_closed {name : Text} {separator : Char} (rest : Text) (hn : IsName name)
    (hs : isSeparator separator = true)
    : spelledOut (name ++ separator :: rest)
      = (if IsStars name then name else spelledOutName name)
        ++ separator :: spelledOut rest := by
  have component := @takeWhile_name_append name (separator :: rest) hn (by simpa using hs)
  have closed := @dropWhile_name_append name (separator :: rest) hn (by simpa using hs)
  rw [spelledOut]
  split
  next he =>
    rw [closed] at he
    cases he
  next he =>
    rw [closed] at he
    cases he
    simp only [component]

theorem spelledOutName_stars {count : Nat} {rest : Text} (hr : rest.head? ≠ some '*')
    : spelledOutName (List.replicate (count + 1) '*' ++ '*' :: rest)
      = '*' :: '*' :: '/' :: '*' :: rest := by
  have enough : 2 ≤ (List.replicate (count + 2) '*').length := by simp
  rw [spelledOutName, takeWhile_stars hr, if_pos enough, dropWhile_stars hr]
  rfl

theorem spelledOutName_whole {name : Text} (h : ¬BeginsWithStars name)
    : spelledOutName name = name := by
  rw [spelledOutName, if_neg fun hs => h (two_le_stars_iff.mp hs)]

-----------------------------------------------------------------------------------------
-- The parts of an expression and of its spelled out form
-----------------------------------------------------------------------------------------

/-- The segment without the asterisks of a globstar. -/
def Segment.withoutStars (segment : Segment) : Segment :=
  if segment.kind = .globstar then { segment with raw := [] } else segment

/-- Leading asterisks give the segments of a globstar and of the wildcard behind it. -/
theorem map_ofName_stars {count : Nat} {rest : Text} (hr : rest.head? ≠ some '*') (isLast : Bool)
    : (Segment.ofName true isLast (List.replicate (count + 1) '*' ++ '*' :: rest)).map
          Segment.withoutStars
      = (Segment.ofTree ['*', '*', '/'] :: Segment.ofName false isLast ('*' :: rest)).map
          Segment.withoutStars := by
  rw [Segment.ofName, if_neg (by simp), Segment.ofComponent_stars hr]
  rfl

theorem segments_globstar (text : Text)
    : segments false ('*' :: '*' :: '/' :: text)
      = Segment.ofTree ['*', '*', '/'] :: segments false text := by
  have name : IsName ['*', '*'] := by simp [IsName, isSeparator]
  exact segments_closed false text name rfl

/-- A component has the same segments with and without leading globstars if it has none. -/
theorem ofName_whole {name : Text} (h : ¬BeginsWithStars name) (isLast : Bool)
    : Segment.ofName true isLast name = Segment.ofName false isLast name := by
  simp only [Segment.ofName, Segment.ofComponent_whole fun _ => h]

/-- The segments of an expression are those of its spelled out form up to the asterisks of
globstars, by induction over its components.
-/
theorem map_segments_spelledOut (expression : Text)
    : (segments true expression).map Segment.withoutStars
      = (segments false (spelledOut expression)).map Segment.withoutStars := by
  induction expression using componentInduction with
  | last name hn =>
      rw [segments_name _ hn, spelledOut_name hn]
      by_cases hb : BeginsWithStars name
      · obtain ⟨count, rest, rfl, hr⟩ := hb.exists_eq
        rw [spelledOutName_stars hr, segments_globstar, segments_name _ hn.of_append,
          map_ofName_stars hr]
      · rw [spelledOutName_whole hb, segments_name _ hn, ofName_whole hb]
  | closed name separator rest hn hs ih =>
      rw [segments_closed _ _ hn hs, spelledOut_closed _ hn hs, Segment.ofClosed, List.map_append,
        ih]
      by_cases ht : IsStars name
      · rw [if_pos ht, if_pos ht, segments_closed _ _ hn hs, Segment.ofClosed, if_pos ht,
          List.map_append]
      · rw [if_neg ht, if_neg ht]
        by_cases hb : BeginsWithStars name
        · obtain ⟨count, others, rfl, hr⟩ := hb.exists_eq
          rw [spelledOutName_stars hr, List.cons_append, List.cons_append, List.cons_append,
            segments_globstar, segments_closed _ _ hn.of_append hs, Segment.ofClosed,
            if_neg (not_isStars_star hr), List.map_append, map_ofName_stars hr]
          simp
        · rw [spelledOutName_whole hb, segments_closed _ _ hn hs, Segment.ofClosed, if_neg ht,
            ofName_whole hb]
          simp only [List.map_append]

/-- The rule for a trailing dot does not see what is in front of an asterisk. -/
theorem endsName_append_star (left rest : Text)
    : TrailingDot.endsName (left ++ '*' :: rest) = TrailingDot.endsName ('*' :: rest) := by
  unfold TrailingDot.endsName
  rw [List.reverse_append]
  cases hr : rest.reverse with
  | nil => simp_all
  | cons c later =>
      cases later with
      | nil => by_cases hc : c = '.' <;> simp [hr, hc]
      | cons d later => by_cases hc : c = '.' <;> simp [hr, hc]

theorem ofExpression_spelledOut (options : Options) (expression : Text)
    : TrailingDot.ofExpression options (spelledOut expression)
      = TrailingDot.ofExpression options expression := by
  induction expression using componentInduction with
  | last name hn =>
      rw [spelledOut_name hn]
      by_cases hb : BeginsWithStars name
      · obtain ⟨count, rest, rfl, hr⟩ := hb.exists_eq
        have spelled : TrailingDot.endsName ('*' :: '*' :: '/' :: '*' :: rest)
            = TrailingDot.endsName ('*' :: rest) :=
          endsName_append_star ['*', '*', '/'] rest
        rw [spelledOutName_stars hr, TrailingDot.ofExpression, TrailingDot.ofExpression, spelled,
          endsName_append_star]
      · rw [spelledOutName_whole hb]
  | closed name separator rest hn hs ih =>
      rw [spelledOut_closed _ hn hs, List.append_cons,
        TrailingDot.ofExpression_append _ (endsComponent_closed _ hs), ih, List.append_cons,
        TrailingDot.ofExpression_append _ (endsComponent_closed _ hs)]

/-- The part without the asterisks of a globstar. -/
def Part.withoutStars (part : Part) : Part :=
  if part.kind = .globstar then part.bare else part

/-- The items of a globstar are the same for all of its raw texts. -/
theorem withoutStars_ofSegment (trailing : TrailingDot) (segment : Segment)
    : (Part.ofSegment trailing segment).withoutStars
      = Part.ofSegment trailing segment.withoutStars := by
  unfold Part.withoutStars Segment.withoutStars
  by_cases hk : segment.kind = .globstar
  · simp [Part.ofSegment, Part.bare, Segment.items, hk]
  · simp [Part.ofSegment, hk]

/-- The parts of an expression are those of its spelled out form up to the asterisks of
globstars, since the segments are and both have the same rule for a trailing dot.
-/
theorem map_withoutStars_parts (options : Options) (expression : Text)
    : (parts { options with leadingGlobstar := true } expression).map Part.withoutStars
      = (parts { options with leadingGlobstar := false } (spelledOut expression)).map
          Part.withoutStars := by
  have stripped (leadingGlobstar : Bool) (trailing : TrailingDot) (text : Text)
      : ((segments leadingGlobstar text).map (Part.ofSegment trailing)).map Part.withoutStars
        = ((segments leadingGlobstar text).map Segment.withoutStars).map
            (Part.ofSegment trailing) := by
    simp only [List.map_map, Function.comp_def, withoutStars_ofSegment]
  have rule : TrailingDot.ofExpression { options with leadingGlobstar := true } expression
      = TrailingDot.ofExpression { options with leadingGlobstar := false }
          (spelledOut expression) :=
    (ofExpression_spelledOut _ _).symm
  rw [parts, parts, stripped, stripped, map_segments_spelledOut, rule]

/-- The glob of parts does not depend on the asterisks of globstars, as none of these belongs to
the base path.
-/
theorem ofParts_withoutStars (anchored : Bool) (parts : List Part)
    : Glob.ofParts anchored (parts.map Part.withoutStars) = Glob.ofParts anchored parts := by
  have kept (part : Part) : part.withoutStars.kind = part.kind := by
    unfold Part.withoutStars
    split <;> rfl
  have bared (part : Part) : part.withoutStars.bare = part.bare := by
    unfold Part.withoutStars
    split <;> rfl
  refine Glob.ofParts_congr ?_ ?_ anchored
  · simp only [List.map_map, Function.comp_def, bared]
  · rw [baseParts_map kept, List.flatMap_map]
    refine List.flatMap_congr fun part hm => ?_
    have invariant := isVariant_of_mem_baseParts hm
    rw [Part.withoutStars, if_neg]
    intro hk
    rw [hk] at invariant
    cases invariant

/-- An expression has the glob of its spelled out form. -/
theorem compile_spelledOut (options : Options) (expression : Text)
    : Glob.compile { options with leadingGlobstar := true } expression
      = Glob.compile { options with leadingGlobstar := false } (spelledOut expression) := by
  rw [Glob.compile_eq_ofParts, Glob.compile_eq_ofParts, ← ofParts_withoutStars,
    map_withoutStars_parts, ofParts_withoutStars]

end PathGlob
