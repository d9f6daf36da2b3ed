import Mathlib.Data.List.Forall2
import PathGlob.Proofs.Segmentation.PartConcatenation

/-! Expressions that differ in how their separators are written. They are cut into the same parts
but for the raw texts of separators and globstars, which differ in the same way.
-/

namespace PathGlob

-----------------------------------------------------------------------------------------
-- Texts that differ in their separators alone
-----------------------------------------------------------------------------------------

/-- The texts are equally long, and where their characters differ both have a separator. -/
def EqUpToSeparators (left right : Text) : Prop :=
  List.Forall₂ (fun c d => c = d ∨ isSeparator c = true ∧ isSeparator d = true) left right

/-- A slash for either separator. -/
def slashed (c : Char) : Char :=
  if isSeparator c then '/' else c

/-- The text with a slash for every separator. -/
def withSlashes (text : Text) : Text :=
  text.map slashed

@[simp]
theorem withSlashes_nil : withSlashes [] = [] :=
  rfl

@[simp]
theorem withSlashes_cons (c : Char) (text : Text)
    : withSlashes (c :: text) = slashed c :: withSlashes text :=
  rfl

theorem withSlashes_append (left right : Text)
    : withSlashes (left ++ right) = withSlashes left ++ withSlashes right :=
  List.map_append

theorem isSeparator_slashed (c : Char) : isSeparator (slashed c) = isSeparator c := by
  rw [slashed]
  split
  next h => rw [h, isSeparator, beq_self_eq_true, Bool.true_or]
  next => rfl

theorem slashed_of_not_separator {c : Char} (hc : isSeparator c = false) : slashed c = c := by
  rw [slashed, hc, if_neg Bool.false_ne_true]

/-- Characters are written alike if they are the same or both are separators. -/
theorem slashed_eq_iff {c d : Char}
    : slashed c = slashed d ↔ c = d ∨ isSeparator c = true ∧ isSeparator d = true := by
  constructor
  · intro h
    have same := congrArg isSeparator h
    rw [isSeparator_slashed, isSeparator_slashed] at same
    cases hc : isSeparator c with
    | true => exact Or.inr ⟨rfl, same ▸ hc⟩
    | false =>
        rw [slashed, slashed, ← same, hc] at h
        exact Or.inl h
  · intro h
    rcases h with rfl | ⟨hc, hd⟩
    · rfl
    · rw [slashed, slashed, if_pos hc, if_pos hd]

/-- Texts are equal up to their separators exactly if they are the same once these are slashes. -/
theorem withSlashes_eq_iff {left right : Text}
    : withSlashes left = withSlashes right ↔ EqUpToSeparators left right := by
  rw [← List.forall₂_eq_eq_eq, withSlashes, withSlashes, List.forall₂_map_left_iff,
    List.forall₂_map_right_iff]
  simp only [slashed_eq_iff, EqUpToSeparators]

instance (left right : Text) : Decidable (EqUpToSeparators left right) :=
  decidable_of_iff _ withSlashes_eq_iff

theorem utf8Size_slashed (c : Char) : (slashed c).utf8Size = c.utf8Size := by
  rw [slashed]
  split
  next h =>
    rw [isSeparator, Bool.or_eq_true, beq_iff_eq, beq_iff_eq] at h
    rcases h with rfl | rfl <;> rfl
  next => rfl

theorem byteLength_withSlashes (text : Text)
    : Text.byteLength (withSlashes text) = Text.byteLength text := by
  induction text with
  | nil => rfl
  | cons c text ih =>
      rw [withSlashes_cons, Text.byteLength_cons, Text.byteLength_cons, utf8Size_slashed, ih]

namespace EqUpToSeparators

variable {left right : Text}

/-- Texts that are equal up to their separators are equally long. -/
theorem byteLength_eq (h : EqUpToSeparators left right)
    : Text.byteLength left = Text.byteLength right := by
  rw [← byteLength_withSlashes left, withSlashes_eq_iff.mpr h, byteLength_withSlashes]

/-- A text that is equal to two joined texts can be cut into what is equal to each of them. -/
theorem exists_eq_append {more : Text} (h : EqUpToSeparators (left ++ more) right)
    : ∃ first second,
        right = first ++ second ∧ EqUpToSeparators left first ∧ EqUpToSeparators more second := by
  have whole := withSlashes_eq_iff.mpr h
  rw [withSlashes_append] at whole
  obtain ⟨first, second, rfl, hl, hm⟩ := List.map_eq_append_iff.mp whole.symm
  exact ⟨first, second, rfl, withSlashes_eq_iff.mp hl.symm, withSlashes_eq_iff.mp hm.symm⟩

end EqUpToSeparators

/-- Names have no separators to differ in, by induction on the name. -/
theorem withSlashes_eq_name_iff {text name : Text} (hn : IsName name)
    : withSlashes text = withSlashes name ↔ text = name := by
  induction name generalizing text with
  | nil => simp [withSlashes]
  | cons c name ih =>
      obtain ⟨hc, hn⟩ := isName_cons_iff.mp hn
      have ih (text : Text) := @ih text hn
      cases text with
      | nil => simp
      | cons d text => simp [slashed_eq_iff, hc, ih]

theorem withSlashes_name {name : Text} (hn : IsName name) : withSlashes name = name := by
  induction name with
  | nil => rfl
  | cons c name ih =>
      obtain ⟨hc, hn⟩ := isName_cons_iff.mp hn
      rw [withSlashes_cons, slashed_of_not_separator hc, ih hn]

theorem withSlashes_closed {name : Text} (hn : IsName name) (separator : Char) (rest : Text)
    : withSlashes (name ++ separator :: rest) = name ++ slashed separator :: withSlashes rest := by
  rw [withSlashes_append, withSlashes_name hn, withSlashes_cons]

-----------------------------------------------------------------------------------------
-- The parts of an expression written with slashes
-----------------------------------------------------------------------------------------

/-- The segment with a slash for every separator. -/
def Segment.slashed (segment : Segment) : Segment :=
  { segment with raw := withSlashes segment.raw }

/-- The part with a slash for every separator of its raw text. -/
def Part.slashed (part : Part) : Part :=
  { part with raw := withSlashes part.raw }

/-- The segments of a name have no separators to replace, by the cases of their making. -/
theorem Segment.map_slashed_ofName (leadingGlobstar isLast : Bool) {name : Text}
    (hn : IsName name)
    : (ofName leadingGlobstar isLast name).map slashed = ofName leadingGlobstar isLast name := by
  have taken (count : Nat) : withSlashes (name.take count) = name.take count :=
    withSlashes_name fun c hm => hn c (List.mem_of_mem_take hm)
  have dropped (count : Nat) : withSlashes (name.drop count) = name.drop count :=
    withSlashes_name fun c hm => hn c (List.mem_of_mem_drop hm)
  simp only [ofName, ofComponent]
  split
  next => rfl
  next =>
    split
    next => simp [slashed, ofTree, taken, dropped]
    next => simp [slashed, withSlashes_name hn]

/-- Segments are made in the same way whichever separators are written, by induction over the
components of the expression.
-/
theorem segments_withSlashes (leadingGlobstar : Bool) (expression : Text)
    : segments leadingGlobstar (withSlashes expression)
      = (segments leadingGlobstar expression).map Segment.slashed := by
  induction expression using componentInduction with
  | last name hn =>
      rw [withSlashes_name hn, segments_name _ hn, Segment.map_slashed_ofName _ _ hn]
  | closed name separator rest hn hs ih =>
      have closing : isSeparator (slashed separator) = true := by rw [isSeparator_slashed, hs]
      rw [withSlashes_closed hn, segments_closed _ _ hn closing, segments_closed _ _ hn hs, ih,
        List.map_append, Segment.ofClosed, Segment.ofClosed]
      congr 1
      split
      next =>
        change _ = [Segment.ofTree (withSlashes (name ++ [separator]))]
        rw [withSlashes_closed hn]
        rfl
      next =>
        rw [List.map_append, Segment.map_slashed_ofName _ _ hn]
        rfl

/-- What a dot at the end means does not depend on the separators, since it is decided in the last
component.
-/
theorem TrailingDot.ofExpression_withSlashes (options : Options) (expression : Text)
    : ofExpression options (withSlashes expression) = ofExpression options expression := by
  induction expression using componentInduction with
  | last name hn => rw [withSlashes_name hn]
  | closed name separator rest hn hs ih =>
      have closing : isSeparator (PathGlob.slashed separator) = true := by
        rw [isSeparator_slashed, hs]
      rw [withSlashes_closed hn, List.append_cons,
        ofExpression_append _ (endsComponent_closed _ closing), ih, List.append_cons,
        ofExpression_append _ (endsComponent_closed _ hs)]

/-- Items are read from components, which have no separators, or from none of the raw text. -/
theorem Segment.items_slashed {segment : Segment} (h : segment.HasShape) (trailing : TrailingDot)
    : segment.slashed.items trailing = segment.items trailing := by
  unfold Segment.HasShape at h
  unfold Segment.items
  cases hk : segment.kind with
  | pathSeparator | globstar => simp only [slashed, hk]
  | wildcard | plain =>
      simp only [hk] at h
      simp only [slashed, hk, withSlashes_name h]

/-- An expression written with slashes has the parts of the expression, written with slashes. -/
theorem parts_withSlashes (options : Options) (expression : Text)
    : parts options (withSlashes expression) = (parts options expression).map Part.slashed := by
  rw [parts, parts, segments_withSlashes, TrailingDot.ofExpression_withSlashes, List.map_map,
    List.map_map]
  refine List.map_congr_left fun segment hm => ?_
  rw [Function.comp_apply, Function.comp_apply, Part.ofSegment,
    Segment.items_slashed (hasShape_of_mem_segments hm)]
  rfl

end PathGlob
