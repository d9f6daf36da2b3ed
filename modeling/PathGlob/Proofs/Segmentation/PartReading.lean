import Mathlib.Data.List.Basic
import PathGlob.Proofs.Segmentation.PartConcatenation
import PathGlob.Proofs.Segmentation.WildcardScan

/-! The items of parts as they are read from raw texts and kinds. Only the last part is read
under the rule for a trailing dot, and its final dot is no item if the rule drops it.
-/

namespace PathGlob

/-- The items of a part, read from its raw text under a rule for the dot at its end. -/
def Part.reading (trailing : TrailingDot) (part : Part) : List Item :=
  match part.kind, trailing with
  | .pathSeparator, _ => [.separator]
  | .globstar, _ => [.globstar]
  | .wildcard, .literal => Item.scan false part.raw
  | .wildcard, .noExtension _ => Item.scan true part.raw.dropLast
  | .plain, .noExtension true => Item.ofLiteral part.raw.dropLast
  | .plain, _ => Item.ofLiteral part.raw

/-- The items of each part; the rule for a trailing dot is for the last one. -/
def readings (trailing : TrailingDot) : List Part → List (List Item)
  | [] => []
  | [part] => [part.reading trailing]
  | part :: next :: parts => part.reading .literal :: readings trailing (next :: parts)

/-- Parts in front of others are read as if there were no rule. -/
theorem readings_append (trailing : TrailingDot) (left : List Part) {right : List Part}
    (hr : right ≠ [])
    : readings trailing (left ++ right)
      = left.map (Part.reading .literal) ++ readings trailing right := by
  induction left with
  | nil => rfl
  | cons part left ih =>
      rw [List.cons_append]
      cases hp : left ++ right with
      | nil => simp_all
      | cons next parts => rw [readings, ← hp, ih, List.map_cons, List.cons_append]

theorem readings_literal (parts : List Part)
    : readings .literal parts = parts.map (Part.reading .literal) := by
  fun_induction readings .literal parts with
  | case1 => rfl
  | case2 part => rfl
  | case3 part next parts ih => rw [ih, List.map_cons, List.map_cons, List.map_cons]

theorem reading_ofSegment {segment : Segment} (h : segment.isLast = false)
    (trailing : TrailingDot)
    : (Part.ofSegment trailing segment).reading .literal = segment.items trailing := by
  rw [Segment.items_of_not_last h]
  unfold Part.reading Segment.items
  cases hk : segment.kind <;> simp [Part.ofSegment, hk, h, Item.ofWildcard_eq_scan]

/-- The last segment is read as its items if the rule has a dot to drop. -/
theorem reading_last_ofSegment {segment : Segment} (h : segment.isLast = true)
    {trailing : TrailingDot} (hd : trailing ≠ .literal → segment.raw.getLast? = some '.')
    : (Part.ofSegment trailing segment).reading trailing = segment.items trailing := by
  unfold Part.reading Segment.items
  cases trailing with
  | literal =>
      cases hk : segment.kind <;> simp [Part.ofSegment, hk, h, Item.ofWildcard_eq_scan]
  | noExtension drops =>
      have hw : segment.raw.withoutDot = segment.raw.dropLast :=
        if_pos (hd (by simp))
      cases hk : segment.kind <;> cases drops <;>
        simp [Part.ofSegment, hk, h, hw, Item.ofWildcard_eq_scan]

/-- A dot at the end of a text is behind all of its asterisks. -/
theorem withoutDot_append_star (left rest : Text)
    : (left ++ '*' :: rest).withoutDot = left ++ '*' :: rest.withoutDot := by
  cases rest with
  | nil => simp [Text.withoutDot]
  | cons c rest =>
      have last : (left ++ '*' :: c :: rest).getLast? = (c :: rest).getLast? := by
        rw [List.getLast?_append_cons, List.getLast?_cons_cons]
      rw [Text.withoutDot, Text.withoutDot, last, List.dropLast_append_cons,
        List.dropLast_cons_cons]
      split <;> rfl

/-- A wildcard has the same items with one asterisk in place of a run of them. -/
theorem Segment.items_stars (left : Text) (count : Nat) (rest : Text) (trailing : TrailingDot)
    (isLast : Bool)
    : Segment.items trailing
        { raw := left ++ (List.replicate count '*' ++ '*' :: rest), kind := .wildcard, isLast }
      = Segment.items trailing { raw := left ++ '*' :: rest, kind := .wildcard, isLast } := by
  have undotted : (left ++ (List.replicate count '*' ++ '*' :: rest)).withoutDot
      = left ++ (List.replicate count '*' ++ '*' :: rest.withoutDot) := by
    rw [← List.append_assoc, withoutDot_append_star, List.append_assoc]
  unfold Segment.items
  cases isLast <;> cases trailing <;>
    simp only [Item.ofWildcard_eq_scan, undotted, withoutDot_append_star, Item.scan_stars]

/-- The segments of a last component are others and one that is the last. -/
theorem exists_ofName_eq_append {leadingGlobstar : Bool} {name : Text} (h : name ≠ [])
    : ∃ others final,
        Segment.ofName leadingGlobstar true name = others ++ [final]
        ∧ (∀ segment ∈ others, segment.isLast = false)
        ∧ final.isLast = true
        ∧ final.raw.getLast? = name.getLast? := by
  simp only [Segment.ofName, List.isEmpty_iff, h, if_false, Segment.ofComponent]
  split
  next hs =>
    have stars : (name.takeWhile (· == '*')).length ≤ name.length :=
      (List.takeWhile_prefix _).length_le
    refine ⟨[_], _, rfl, ?_, rfl, ?_⟩
    · intro segment hm
      obtain rfl := List.mem_singleton.mp hm
      rfl
    · rw [Bool.and_eq_true, decide_eq_true_eq] at hs
      rw [List.getLast?_drop, if_neg (by omega)]
  next => exact ⟨[], _, rfl, by simp, rfl, rfl⟩

/-- Every text is an expression that ends a component and a last name. -/
theorem exists_eq_endsComponent_append (text : Text)
    : ∃ left name, text = left ++ name ∧ EndsComponent left ∧ IsName name := by
  induction text using componentInduction with
  | last name hn => exact ⟨[], name, rfl, by simp [EndsComponent], hn⟩
  | closed name separator rest hn hs ih =>
      obtain ⟨left, final, rfl, hl, hf⟩ := ih
      have ends := (endsComponent_closed name hs).append hl
      exact ⟨name ++ [separator] ++ left, final, by simp, ends, hf⟩

/-- A rule for a trailing dot needs a dot at the end of the expression. -/
theorem getLast?_of_ofExpression {options : Options} {expression : Text}
    (h : TrailingDot.ofExpression options expression ≠ .literal)
    : expression.getLast? = some '.' := by
  rw [TrailingDot.ofExpression] at h
  split at h
  next he =>
    have ends := (Bool.and_eq_true_iff.mp he).2
    rw [TrailingDot.endsName] at ends
    split at ends
    next hr => rw [List.getLast?_eq_head?_reverse, hr, List.head?_cons]
    next => cases ends
  next => exact absurd rfl h

/-- What parts are read as from their raw texts and kinds are their items. The expression is
taken apart in front of its last name, where alone the rule for a trailing dot matters.
-/
theorem readings_parts (options : Options) (expression : Text)
    : readings (.ofExpression options expression) (parts options expression)
      = (parts options expression).map Part.items := by
  obtain ⟨left, name, rfl, hl, hn⟩ := exists_eq_endsComponent_append expression
  have inner {segments : List Segment} (hs : ∀ segment ∈ segments, segment.isLast = false)
      (trailing : TrailingDot)
      : (segments.map (Part.ofSegment trailing)).map (Part.reading .literal)
        = (segments.map (Part.ofSegment trailing)).map Part.items := by
    rw [List.map_map, List.map_map]
    exact List.map_congr_left fun segment hm => reading_ofSegment (hs segment hm) trailing
  have lefts : (parts options left).map (Part.reading .literal)
      = (parts options left).map Part.items := by
    rw [← parts_of_endsComponent options hl .literal]
    exact inner (fun _ hm => isLast_of_endsComponent hl hm) .literal
  by_cases he : name = []
  · subst he
    rw [List.append_nil, TrailingDot.ofExpression_of_endsComponent options hl, readings_literal,
      lefts]
  · obtain ⟨others, final, hs, ho, hf, hd⟩ :=
      @exists_ofName_eq_append options.leadingGlobstar name he
    rw [parts_append options hl, TrailingDot.ofExpression_append options hl]
    have names : parts options name
        = others.map (Part.ofSegment (.ofExpression options name))
          ++ [Part.ofSegment (.ofExpression options name) final] := by
      rw [parts, segments_name _ hn, hs, List.map_append, List.map_singleton]
    have last := reading_last_ofSegment hf
      fun ht : TrailingDot.ofExpression options name ≠ .literal =>
        hd.trans (getLast?_of_ofExpression ht)
    rw [names, readings_append _ _ (by simp), readings_append _ _ (by simp), readings, last, lefts,
      inner ho]
    simp [Part.ofSegment]

end PathGlob
