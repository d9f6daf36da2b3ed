import PathGlob.Proofs.Segmentation.TokenSequence
import PathGlob.Segment

/-! The segments of a glob expression one component after another. What a component becomes
depends on its own text and on whether a separator closes it, and on nothing else.
-/

namespace PathGlob

/-- The text holds no separator. -/
def IsName (text : Text) : Prop :=
  ∀ c ∈ text, isSeparator c = false

theorem isName_cons_iff {c : Char} {text : Text}
    : IsName (c :: text) ↔ isSeparator c = false ∧ IsName text :=
  @Delimiters.isWord_cons_iff .separators c text

theorem IsName.append {left right : Text} (hl : IsName left) (hr : IsName right)
    : IsName (left ++ right) :=
  List.forall_mem_append.mpr ⟨hl, hr⟩

theorem IsName.of_append {left right : Text} (h : IsName (left ++ right)) : IsName right :=
  fun c hm => h c (List.mem_append_right _ hm)

theorem IsName.not_mem {text : Text} (hn : IsName text) {c : Char} (hs : isSeparator c = true)
    : c ∉ text := by
  intro hm
  rw [hn c hm] at hs
  cases hs

/-- The text is two or more asterisks and nothing else. -/
def IsStars (text : Text) : Prop :=
  ∃ count, 2 ≤ count ∧ text = List.replicate count '*'

theorem isStars_iff {text : Text} : IsStars text ↔ 2 ≤ text.length ∧ ∀ c ∈ text, c = '*' := by
  constructor
  · rintro ⟨count, enough, rfl⟩
    exact ⟨by rwa [List.length_replicate], fun _ => List.eq_of_mem_replicate⟩
  · rintro ⟨enough, all⟩
    exact ⟨text.length, enough, List.eq_replicate_iff.mpr ⟨rfl, all⟩⟩

instance (text : Text) : Decidable (IsStars text) :=
  decidable_of_iff (2 ≤ text.length ∧ text = List.replicate text.length '*') <| by
    simp only [isStars_iff, List.eq_replicate_iff, true_and]

/-- Tokens are read as trees by their texts, which are these. -/
theorem isTreeText_iff {text : Text} : isTreeText text = true ↔ IsStars text := by
  rw [isStars_iff, isTreeText, Bool.and_eq_true, decide_eq_true_eq, List.all_eq_true]
  simp only [beq_iff_eq]

theorem IsStars.isName {text : Text} (h : IsStars text) : IsName text := by
  intro c hc
  rw [(isStars_iff.mp h).2 c hc]
  rfl

theorem not_isStars_of_plain {text : Text} (hp : ∀ c ∈ text, isWildcard c = false)
    : ¬IsStars text := by
  rintro ⟨count, enough, rfl⟩
  have member : '*' ∈ List.replicate count '*' := List.mem_replicate.mpr ⟨by omega, rfl⟩
  cases hp '*' member

/-- The text is empty or ends with a separator. -/
def EndsComponent (text : Text) : Prop :=
  ∀ c ∈ text.getLast?, isSeparator c = true

/-- Induction over the components of a text, as words that separators delimit. -/
@[elab_as_elim]
theorem componentInduction {motive : Text → Prop} (text : Text)
    (last : ∀ name, IsName name → motive name)
    (closed : ∀ name separator rest, IsName name → isSeparator separator = true
      → motive rest → motive (name ++ separator :: rest))
    : motive text :=
  Delimiters.separators.wordInduction text last closed

section
variable {name tail : Text} (hn : IsName name) (ht : ∀ c ∈ tail.head?, isSeparator c = true)
include hn ht

theorem takeWhile_name_append
    : (name ++ tail).takeWhile (fun c => !isSeparator c) = name := by
  rw [List.takeWhile_append_of_pos fun c hc => by rw [hn c hc]; rfl]
  cases tail with
  | nil => simp
  | cons c tail => simp [ht c rfl]

theorem dropWhile_name_append
    : (name ++ tail).dropWhile (fun c => !isSeparator c) = tail := by
  rw [List.dropWhile_append_of_pos fun c hc => by rw [hn c hc]; rfl]
  cases tail with
  | nil => rfl
  | cons c tail => simp [ht c rfl]

/-- A name in front of nothing or of a separator is known from the whole text. -/
theorem name_append_inj {other rest : Text} (ho : IsName other)
    (hr : ∀ c ∈ rest.head?, isSeparator c = true) (he : name ++ tail = other ++ rest)
    : name = other ∧ tail = rest := by
  refine ⟨?_, ?_⟩
  · rw [← takeWhile_name_append hn ht, he, takeWhile_name_append ho hr]
  · rw [← dropWhile_name_append hn ht, he, dropWhile_name_append ho hr]

end

theorem IsName.eq_nil {text : Text} (hn : IsName text) (he : EndsComponent text)
    : text = [] := by
  cases hl : text.getLast? with
  | none => exact List.getLast?_eq_none_iff.mp hl
  | some c => exact absurd (List.mem_of_getLast? hl) (hn.not_mem (he c hl))

theorem endsComponent_closed (name : Text) {separator : Char} (hs : isSeparator separator = true)
    : EndsComponent (name ++ [separator]) := by
  simpa [EndsComponent] using hs

theorem EndsComponent.append {left right : Text} (hl : EndsComponent left)
    (hr : EndsComponent right)
    : EndsComponent (left ++ right) := by
  intro c hc
  rw [List.getLast?_append] at hc
  cases hs : right.getLast? with
  | none => exact hl c (by simpa [hs] using hc)
  | some d => exact hr c (by simpa [hs] using hc)

/-- The end of a text that ends a component does so itself. -/
theorem EndsComponent.of_append {left right : Text} (h : EndsComponent (left ++ right))
    : EndsComponent right := by
  intro c hc
  refine h c ?_
  rw [List.getLast?_append, Option.mem_def.mp hc]
  rfl

/-- What is left after a closed component ends a component if the whole text does. -/
theorem EndsComponent.rest {name rest : Text} {separator : Char}
    (h : EndsComponent (name ++ separator :: rest))
    : EndsComponent rest := by
  rw [List.append_cons] at h
  exact h.of_append

/-- Segments do not depend on the places of the tokens that they are made of. -/
theorem segments_eq_unplaced (leadingGlobstar : Bool) (expression : Text)
    : segments leadingGlobstar expression
      = (runs foldsInto
            (unplacedTokens .separators (runs Delimiters.separators.joins expression))).flatMap
          (Segment.ofRun leadingGlobstar) := by
  refine flatMap_runs_tokens (fun _ _ => rfl) ?_ _ _
  intro run
  have items : ({ first := run.first.unplaced, rest := run.rest.map Token.unplaced }
        : Run Token).items.flatMap Token.text
      = run.items.flatMap Token.text := by
    simp [Run.items, Token.unplaced, List.flatMap_map]
  simp only [Segment.ofRun, Run.count, List.length_map]
  rw [items]
  rfl

-----------------------------------------------------------------------------------------
-- The segments of one component
-----------------------------------------------------------------------------------------

namespace Segment

/-- The segments of a component that is not folded with a separator. -/
def ofName (leadingGlobstar isLast : Bool) (name : Text) : List Segment :=
  if name.isEmpty then
    []
  else
    let (segment, pending) := ofComponent leadingGlobstar isLast name
    segment :: pending

/-- The segments of a component with the separator that closes it. -/
def ofClosed (leadingGlobstar : Bool) (name : Text) (separator : Char) : List Segment :=
  if IsStars name then
    [ofTree (name ++ [separator])]
  else
    ofName leadingGlobstar false name ++ [ofSeparator [separator]]

end Segment

/-- The segments of the last component are those of its name. -/
theorem segments_name (leadingGlobstar : Bool) {name : Text} (hn : IsName name)
    : segments leadingGlobstar name = Segment.ofName leadingGlobstar true name := by
  cases name with
  | nil => rfl
  | cons c name =>
      rw [segments_eq_unplaced, @Delimiters.runs_word .separators _ _ hn]
      have hc : Delimiters.separators.contains c = false := hn c (by simp)
      simp [unplacedTokens, hc, runs, Run.cons, Segment.ofRun, Run.count, Run.items,
        Segment.ofName]

/-- A separator is folded with nothing behind it. -/
theorem runs_separator {token : Token} (h : token.isDelimiter = true) (later : List Token)
    : runs foldsInto (token :: later) = { first := token, rest := [] } :: runs foldsInto later :=
  runs_cons_of_not_adjacent fun next _ => by simp [foldsInto, Token.isTree, h]

/-- The segments of a closed component come before those of what is left. -/
theorem segments_closed (leadingGlobstar : Bool) {name : Text} {separator : Char} (rest : Text)
    (hn : IsName name) (hs : isSeparator separator = true)
    : segments leadingGlobstar (name ++ separator :: rest)
      = Segment.ofClosed leadingGlobstar name separator ++ segments leadingGlobstar rest := by
  have hd : Delimiters.separators.contains separator = true := hs
  rw [segments_eq_unplaced, segments_eq_unplaced, Delimiters.runs_closed hd]
  cases name with
  | nil =>
      change (runs foldsInto (_ :: unplacedTokens _ _)).flatMap _ = _
      rw [runs_separator hd]
      simp [Segment.ofClosed, Segment.ofName, Segment.ofRun, Run.count, Run.items, isStars_iff, hd]
  | cons c name =>
      have hc : Delimiters.separators.contains c = false := hn c (by simp)
      rw [@Delimiters.runs_word .separators _ _ hn]
      change (Run.cons foldsInto _ (runs foldsInto (_ :: unplacedTokens _ _))).flatMap _ = _
      rw [runs_separator hd]
      by_cases ht : IsStars (c :: name)
      · simp [Run.cons, foldsInto, Token.isTree, isTreeText_iff, hc, hd, ht, Segment.ofRun,
          Segment.ofClosed, Run.count, Run.items]
      · simp [Run.cons, foldsInto, Token.isTree, isTreeText_iff, hc, hd, ht, Segment.ofRun,
          Segment.ofClosed, Segment.ofName, Run.count, Run.items]

-----------------------------------------------------------------------------------------
-- Expressions that are cut after a separator
-----------------------------------------------------------------------------------------

/-- Segments compose where a component ends, by induction over the components of the first
expression.
-/
theorem segments_append (leadingGlobstar : Bool) {left : Text} (h : EndsComponent left)
    (right : Text)
    : segments leadingGlobstar (left ++ right)
      = segments leadingGlobstar left ++ segments leadingGlobstar right := by
  induction left using componentInduction with
  | last name hn =>
      rw [hn.eq_nil h]
      rfl
  | closed name separator rest hn hs ih =>
      rw [List.append_assoc, List.cons_append, segments_closed _ _ hn hs,
        segments_closed _ _ hn hs, ih h.rest, List.append_assoc]

theorem isLast_of_mem_ofName {leadingGlobstar : Bool} {name : Text} {segment : Segment}
    (hm : segment ∈ Segment.ofName leadingGlobstar false name)
    : segment.isLast = false := by
  simp only [Segment.ofName, Segment.ofComponent] at hm
  split at hm
  · cases hm
  · split at hm
    · simp only [List.mem_cons, List.not_mem_nil, or_false] at hm
      rcases hm with rfl | rfl <;> rfl
    · obtain rfl := List.mem_singleton.mp hm
      rfl

theorem kind_ne_of_mem_ofName {leadingGlobstar isLast : Bool} {name : Text} {segment : Segment}
    (hm : segment ∈ Segment.ofName leadingGlobstar isLast name)
    : segment.kind ≠ .pathSeparator := by
  simp only [Segment.ofName, Segment.ofComponent] at hm
  split at hm
  · cases hm
  · split at hm
    · simp only [List.mem_cons, List.not_mem_nil, or_false] at hm
      rcases hm with rfl | rfl <;> simp [Segment.ofTree]
    · obtain rfl := List.mem_singleton.mp hm
      rw [Kind.ofComponent]
      split <;> simp

theorem isLast_of_mem_ofClosed {leadingGlobstar : Bool} {name : Text} {separator : Char}
    {segment : Segment} (hm : segment ∈ Segment.ofClosed leadingGlobstar name separator)
    : segment.isLast = false := by
  rw [Segment.ofClosed] at hm
  split at hm
  · obtain rfl := List.mem_singleton.mp hm
    rfl
  · rcases List.mem_append.mp hm with hm | hm
    · exact isLast_of_mem_ofName hm
    · obtain rfl := List.mem_singleton.mp hm
      rfl

/-- An expression that ends a component has no last segment, by induction over its
components.
-/
theorem isLast_of_endsComponent {leadingGlobstar : Bool} {expression : Text}
    (h : EndsComponent expression) {segment : Segment}
    (hm : segment ∈ segments leadingGlobstar expression)
    : segment.isLast = false := by
  induction expression using componentInduction with
  | last name hn =>
      rw [hn.eq_nil h] at hm
      cases hm
  | closed name separator rest hn hs ih =>
      rw [segments_closed _ _ hn hs] at hm
      rcases List.mem_append.mp hm with hm | hm
      · exact isLast_of_mem_ofClosed hm
      · exact ih h.rest hm

-----------------------------------------------------------------------------------------
-- Raw texts and kinds
-----------------------------------------------------------------------------------------

/-- A path separator is one separator, and a component holds none. -/
def Segment.HasShape (segment : Segment) : Prop :=
  match segment.kind with
  | .pathSeparator => ∃ separator, segment.raw = [separator] ∧ isSeparator separator = true
  | .wildcard | .plain => IsName segment.raw
  | .globstar => True

theorem hasShape_of_mem_ofName {leadingGlobstar isLast : Bool} {name : Text} (hn : IsName name)
    {segment : Segment} (hm : segment ∈ Segment.ofName leadingGlobstar isLast name)
    : segment.HasShape := by
  simp only [Segment.ofName, Segment.ofComponent] at hm
  split at hm
  · cases hm
  · split at hm
    · simp only [List.mem_cons, List.not_mem_nil, or_false] at hm
      rcases hm with rfl | rfl
      · trivial
      · exact fun c hc => hn c (List.mem_of_mem_drop hc)
    · obtain rfl := List.mem_singleton.mp hm
      rw [Segment.HasShape, Kind.ofComponent]
      cases name.any isWildcard <;> exact hn

/-- All segments are shaped by their kinds, by induction over the components of the
expression.
-/
theorem hasShape_of_mem_segments {leadingGlobstar : Bool} {expression : Text}
    {segment : Segment} (hm : segment ∈ segments leadingGlobstar expression)
    : segment.HasShape := by
  induction expression using componentInduction with
  | last name hn =>
      rw [segments_name _ hn] at hm
      exact hasShape_of_mem_ofName hn hm
  | closed name separator rest hn hs ih =>
      rw [segments_closed _ _ hn hs, Segment.ofClosed] at hm
      rcases List.mem_append.mp hm with hm | hm
      · split at hm
        · obtain rfl := List.mem_singleton.mp hm
          trivial
        · rcases List.mem_append.mp hm with hm | hm
          · exact hasShape_of_mem_ofName hn hm
          · obtain rfl := List.mem_singleton.mp hm
            exact ⟨separator, rfl, hs⟩
      · exact ih hm

end PathGlob
