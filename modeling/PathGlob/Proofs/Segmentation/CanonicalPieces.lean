import PathGlob.Part
import PathGlob.Proofs.Segmentation.LeadingStars

/-! The raw pieces of an expression and their kinds are the only list that keeps a few laws. Each
of these laws looks at a piece and its neighbours, and none of them at how pieces are found.
-/

namespace PathGlob

/-- A raw text and what it stands for. -/
structure Piece where
  raw : Text
  kind : Kind

/-- What a part says of the expression, without what it accepts. -/
def Part.piece (part : Part) : Piece where
  raw := part.raw
  kind := part.kind

/-- What a segment says of the expression, without its place. -/
def Segment.piece (segment : Segment) : Piece where
  raw := segment.raw
  kind := segment.kind

-----------------------------------------------------------------------------------------
-- The laws of a piece between its neighbours
-----------------------------------------------------------------------------------------

namespace Piece

/-- The piece stands for one component, or for what is left of it behind a globstar. -/
def IsComponent (piece : Piece) : Prop :=
  piece.kind = .plain ∨ piece.kind = .wildcard

/-- The piece is two or more asterisks and the separator that follows them. -/
def IsFolded (piece : Piece) : Prop :=
  ∃ stars separator,
    piece.raw = stars ++ [separator]
    ∧ IsStars stars
    ∧ isSeparator separator = true

/-- The piece is one or more asterisks in front of a wildcard that begins with exactly one. -/
def IsLeading (piece : Piece) (next : Option Piece) : Prop :=
  (∃ count, piece.raw = List.replicate (count + 1) '*')
  ∧ ∃ wildcard ∈ next,
      wildcard.kind = .wildcard
      ∧ ∃ rest, wildcard.raw = '*' :: rest ∧ rest.head? ≠ some '*'

/-- The asterisks of a globstar that is folded with no separator. -/
def cutStars : Option Piece → Text
  | none => []
  | some piece =>
      if piece.kind = .globstar ∧ piece.raw.all (fun c => !isSeparator c) then piece.raw else []

/-- The laws that a piece keeps between its neighbours. There is no previous piece exactly at the
beginning of the expression, since no piece is empty.
-/
structure Fits (leadingGlobstar : Bool) (previous : Option Piece) (piece : Piece)
    (next : Option Piece)
    : Prop where
  nonempty : piece.raw ≠ []
  /-- A path separator is one separator. -/
  separator : piece.kind = .pathSeparator → piece.raw = ['/'] ∨ piece.raw = ['\\']
  plain : piece.kind = .plain → IsName piece.raw ∧ ∀ c ∈ piece.raw, isWildcard c = false
  wildcard : piece.kind = .wildcard → IsName piece.raw ∧ ∃ c ∈ piece.raw, isWildcard c = true
  /-- A globstar begins a component, and is closed by a separator or goes on as a wildcard. -/
  globstar
    : piece.kind = .globstar
      → (∀ before ∈ previous, EndsComponent before.raw)
        ∧ (piece.IsFolded ∨ leadingGlobstar = true ∧ piece.IsLeading next)
  /-- Only a separator ends a component in front of other pieces. -/
  closed : piece.IsComponent → ∀ after ∈ next, after.kind = .pathSeparator
  /-- Two or more asterisks in front of a separator are folded with it. -/
  folded
    : piece.kind = .wildcard
      → IsStars (cutStars previous ++ piece.raw)
      → ∀ after ∈ next, after.kind ≠ .pathSeparator
  /-- Leading asterisks but one are cut off where this is allowed. -/
  leading : leadingGlobstar = true → piece.kind = .wildcard → ¬BeginsWithStars piece.raw

end Piece

/-- Each piece of a list fits behind the previous one and in front of the next one. -/
def AllFit (leadingGlobstar : Bool) : Option Piece → List Piece → Prop
  | _, [] => True
  | previous, piece :: pieces =>
      piece.Fits leadingGlobstar previous pieces.head?
      ∧ AllFit leadingGlobstar (some piece) pieces

/-- The pieces join to the expression, and each of them fits between its neighbours. -/
structure IsCanonical (leadingGlobstar : Bool) (expression : Text) (pieces : List Piece)
    : Prop where
  joins : pieces.flatMap Piece.raw = expression
  fits : AllFit leadingGlobstar none pieces

section
variable {leadingGlobstar : Bool}

/-- Each piece of a list that fits has its neighbours, by induction on the list. -/
theorem AllFit.exists_fits {previous : Option Piece} {pieces : List Piece}
    (h : AllFit leadingGlobstar previous pieces) {piece : Piece} (hm : piece ∈ pieces)
    : ∃ before after, piece.Fits leadingGlobstar before after := by
  induction pieces generalizing previous with
  | nil => cases hm
  | cons first pieces ih =>
      rcases List.mem_cons.mp hm with rfl | hm
      · exact ⟨previous, pieces.head?, h.1⟩
      · exact ih h.2 hm

/-- A piece that ends a component leaves no trace in what fits behind it. -/
theorem Piece.fits_some_iff {previous piece : Piece} {next : Option Piece}
    (hn : previous.raw ≠ []) (he : EndsComponent previous.raw)
    : piece.Fits leadingGlobstar (some previous) next ↔ piece.Fits leadingGlobstar none next := by
  have uncut : cutStars (some previous) = cutStars none := by
    refine if_neg fun h => ?_
    have last := he _ (List.getLast?_eq_some_getLast hn)
    have name := List.all_eq_true.mp h.2 _ (List.getLast_mem hn)
    simp [last] at name
  refine ⟨fun h => ?_, fun h => ?_⟩
  · exact { h with globstar := fun hk => ⟨nofun, (h.globstar hk).2⟩, folded := uncut ▸ h.folded }
  · refine { h with globstar := fun hk => ⟨?_, (h.globstar hk).2⟩, folded := uncut ▸ h.folded }
    intro before hb
    cases hb
    exact he

theorem allFit_some_iff {previous : Piece} {pieces : List Piece} (hn : previous.raw ≠ [])
    (he : EndsComponent previous.raw)
    : AllFit leadingGlobstar (some previous) pieces ↔ AllFit leadingGlobstar none pieces := by
  cases pieces with
  | nil => rfl
  | cons piece pieces => exact and_congr_left' (Piece.fits_some_iff hn he)

-----------------------------------------------------------------------------------------
-- Segments fit
-----------------------------------------------------------------------------------------

/-- The piece of one separator. -/
def Piece.ofSeparator (separator : Char) : Piece where
  raw := [separator]
  kind := .pathSeparator

theorem allFit_separator {separator : Char} (hs : isSeparator separator = true)
    {pieces : List Piece} (h : AllFit leadingGlobstar none pieces) (previous : Option Piece)
    : AllFit leadingGlobstar previous (.ofSeparator separator :: pieces) := by
  refine ⟨?_, (allFit_some_iff (by simp [Piece.ofSeparator]) (endsComponent_closed [] hs)).mpr h⟩
  exact {
    nonempty := by simp [Piece.ofSeparator]
    separator := fun _ => by simpa [Piece.ofSeparator, isSeparator] using hs
    plain := nofun
    wildcard := nofun
    globstar := nofun
    closed := fun hc => by rcases hc with hc | hc <;> cases hc
    folded := nofun
    leading := nofun
  }

/-- Asterisks that are folded with a separator fit in front of what fits by itself. -/
theorem allFit_folded {stars : Text} {separator : Char} (ht : IsStars stars)
    (hs : isSeparator separator = true) {pieces : List Piece}
    (h : AllFit leadingGlobstar none pieces)
    : AllFit leadingGlobstar none
        ({ raw := stars ++ [separator], kind := .globstar } :: pieces) := by
  refine ⟨?_, (allFit_some_iff (by simp) (endsComponent_closed stars hs)).mpr h⟩
  exact {
    nonempty := by simp
    separator := nofun
    plain := nofun
    wildcard := nofun
    globstar := fun _ => ⟨nofun, Or.inl ⟨stars, separator, rfl, ht, hs⟩⟩
    closed := fun hc => by rcases hc with hc | hc <;> cases hc
    folded := nofun
    leading := nofun
  }

/-- A whole component fits in front of nothing, or of a separator that it is not folded with. -/
theorem fits_component {name : Text} (hn : IsName name) (he : name ≠ [])
    (hw : leadingGlobstar = true → ¬BeginsWithStars name) {next : Option Piece}
    (hc : ∀ after ∈ next, after.kind = .pathSeparator ∧ ¬IsStars name)
    : Piece.Fits leadingGlobstar none { raw := name, kind := .ofComponent name } next := by
  have separate : Kind.ofComponent name ≠ .pathSeparator ∧ Kind.ofComponent name ≠ .globstar := by
    rw [Kind.ofComponent]
    split <;> simp
  exact {
    nonempty := he
    separator := fun hk => absurd hk separate.1
    plain := fun hk => ⟨hn, by simpa [Kind.ofComponent] using hk⟩
    wildcard := fun hk => ⟨hn, by simpa [Kind.ofComponent] using hk⟩
    globstar := fun hk => absurd hk separate.2
    closed := fun _ after ha => (hc after ha).1
    folded := by
      intro _ ht after ha
      exact absurd ht (hc after ha).2
    leading := fun hl _ => hw hl
  }

/-- Leading asterisks but one fit in front of the wildcard that begins with the one left. -/
theorem fits_leading {rest : Text} (hr : rest.head? ≠ some '*') (count : Nat)
    : Piece.Fits true none { raw := List.replicate (count + 1) '*', kind := .globstar }
        (some { raw := '*' :: rest, kind := .wildcard }) where
  nonempty := by simp
  separator := nofun
  plain := nofun
  wildcard := nofun
  globstar := fun _ => ⟨nofun, Or.inr ⟨rfl, ⟨count, rfl⟩, _, rfl, rfl, rest, rfl, hr⟩⟩
  closed := fun hc => by rcases hc with hc | hc <;> cases hc
  folded := nofun
  leading := nofun

theorem cutStars_replicate (count : Nat)
    : Piece.cutStars (some { raw := List.replicate count '*', kind := .globstar })
      = List.replicate count '*' := by
  refine if_pos ⟨rfl, List.all_eq_true.mpr fun c hc => ?_⟩
  rw [List.eq_of_mem_replicate hc]
  rfl

/-- What is left of a component fits behind the asterisks that are cut off. -/
theorem fits_left {count : Nat} {rest : Text} (hn : IsName ('*' :: rest))
    (hr : rest.head? ≠ some '*') {next : Option Piece}
    (hc : ∀ after ∈ next,
      after.kind = .pathSeparator
      ∧ ¬IsStars (List.replicate (count + 1) '*' ++ '*' :: rest))
    : Piece.Fits leadingGlobstar
        (some { raw := List.replicate (count + 1) '*', kind := .globstar })
        { raw := '*' :: rest, kind := .wildcard } next where
  nonempty := by simp
  separator := nofun
  plain := nofun
  wildcard := fun _ => ⟨hn, '*', by simp, rfl⟩
  globstar := nofun
  closed := fun _ after ha => (hc after ha).1
  folded := by
    intro _ ht after ha
    rw [cutStars_replicate] at ht
    exact absurd ht (hc after ha).2
  leading := by
    rintro _ _ ⟨more, he⟩
    cases he
    exact hr rfl

/-- The segments of a name fit in front of nothing, or of a separator that it is not folded with.
There are two of them if leading asterisks are cut off, and one otherwise.
-/
theorem allFit_ofName (isLast : Bool) {name : Text} (hn : IsName name) {pieces : List Piece}
    (hp : ∀ previous, AllFit leadingGlobstar previous pieces)
    (hc : ∀ after ∈ pieces.head?, after.kind = .pathSeparator ∧ ¬IsStars name)
    : AllFit leadingGlobstar none
        ((Segment.ofName leadingGlobstar isLast name).map Segment.piece ++ pieces) := by
  by_cases he : name = []
  · subst he
    exact hp none
  · by_cases hs : leadingGlobstar = true ∧ BeginsWithStars name
    · obtain ⟨rfl, hs⟩ := hs
      obtain ⟨count, rest, rfl, hr⟩ := hs.exists_eq
      rw [Segment.ofName, if_neg (by simp), Segment.ofComponent_stars hr]
      exact ⟨fits_leading hr count, fits_left hn.of_append hr hc, hp _⟩
    · have whole : leadingGlobstar = true → ¬BeginsWithStars name := fun hl hb => hs ⟨hl, hb⟩
      rw [Segment.ofName, if_neg (by simpa using he), Segment.ofComponent_whole whole]
      exact ⟨fits_component hn he whole hc, hp _⟩

/-- The segments of an expression fit, by induction over its components. -/
theorem allFit_segments (expression : Text)
    : AllFit leadingGlobstar none ((segments leadingGlobstar expression).map Segment.piece) := by
  induction expression using componentInduction with
  | last name hn =>
      rw [segments_name _ hn]
      simpa using @allFit_ofName leadingGlobstar true name hn [] (fun _ => trivial) nofun
  | closed name separator rest hn hs ih =>
      rw [segments_closed _ _ hn hs, Segment.ofClosed, List.map_append]
      by_cases ht : IsStars name
      · rw [if_pos ht]
        exact allFit_folded ht hs ih
      · rw [if_neg ht, List.map_append, List.append_assoc]
        refine allFit_ofName false hn (allFit_separator hs ih) ?_
        intro after ha
        cases ha
        exact ⟨rfl, ht⟩

-----------------------------------------------------------------------------------------
-- Only the segments fit
-----------------------------------------------------------------------------------------

theorem eq_nil_of_allFit {previous : Option Piece} {pieces : List Piece}
    (h : AllFit leadingGlobstar previous pieces) (hj : pieces.flatMap Piece.raw = [])
    : pieces = [] := by
  cases pieces with
  | nil => rfl
  | cons piece pieces => exact absurd (List.append_eq_nil_iff.mp hj).1 h.1.nonempty

theorem exists_eq_ofSeparator {previous next : Option Piece} {piece : Piece}
    (h : piece.Fits leadingGlobstar previous next) (hk : piece.kind = .pathSeparator)
    : ∃ separator, isSeparator separator = true ∧ piece = .ofSeparator separator := by
  obtain ⟨raw, kind⟩ := piece
  obtain rfl : kind = .pathSeparator := hk
  rcases h.separator rfl with hr | hr
  · exact ⟨'/', rfl, congrArg (Piece.mk · _) hr⟩
  · exact ⟨'\\', rfl, congrArg (Piece.mk · _) hr⟩

/-- What follows a separator fits by itself. -/
theorem allFit_of_ofSeparator {previous : Option Piece} {separator : Char} {pieces : List Piece}
    (hs : isSeparator separator = true)
    (h : AllFit leadingGlobstar previous (.ofSeparator separator :: pieces))
    : AllFit leadingGlobstar none pieces :=
  (allFit_some_iff (by simp [Piece.ofSeparator]) (endsComponent_closed [] hs)).mp h.2

/-- A globstar begins with an asterisk, whether it is folded with a separator or not. -/
theorem Piece.Fits.head?_of_globstar {previous next : Option Piece} {piece : Piece}
    (h : piece.Fits leadingGlobstar previous next) (hk : piece.kind = .globstar)
    : piece.raw.head? = some '*' := by
  rcases (h.globstar hk).2
    with ⟨stars, separator, hr, ⟨count, enough, rfl⟩, -⟩ | ⟨-, ⟨count, hr⟩, -⟩
  · obtain ⟨more, rfl⟩ := Nat.exists_eq_add_of_le' enough
    rw [hr]
    rfl
  · rw [hr]
    rfl

/-- A piece that begins with a separator is one. -/
theorem kind_of_separator {previous next : Option Piece} {piece : Piece} {separator : Char}
    (h : piece.Fits leadingGlobstar previous next) (hs : isSeparator separator = true)
    (hm : piece.raw.head? = some separator)
    : piece.kind = .pathSeparator := by
  have member := List.mem_of_head? hm
  cases hk : piece.kind with
  | pathSeparator => rfl
  | plain => exact absurd member ((h.plain hk).1.not_mem hs)
  | wildcard => exact absurd member ((h.wildcard hk).1.not_mem hs)
  | globstar =>
      obtain rfl : '*' = separator := Option.some.inj ((h.head?_of_globstar hk).symm.trans hm)
      cases hs

/-- What closes a name: nothing, or a separator in front of other pieces. -/
def Closes (leadingGlobstar : Bool) : Text → List Piece → Prop
  | [], pieces => pieces = []
  | separator :: rest, pieces =>
      ∃ others, pieces = .ofSeparator separator :: others ∧ IsCanonical leadingGlobstar rest others

/-- A component takes the whole name that a text begins with. -/
theorem component_eq {previous : Option Piece} {front name tail : Text} {piece : Piece}
    {pieces : List Piece} (h : AllFit leadingGlobstar previous (piece :: pieces))
    (hc : piece.IsComponent) (hf : IsName front) (hn : IsName name)
    (ht : ∀ c ∈ tail.head?, isSeparator c = true)
    (hj : front ++ (piece :: pieces).flatMap Piece.raw = name ++ tail)
    : front ++ piece.raw = name ∧ Closes leadingGlobstar tail pieces := by
  have own : IsName (front ++ piece.raw) := by
    have raw : IsName piece.raw := by
      rcases hc with hk | hk
      · exact (h.1.plain hk).1
      · exact (h.1.wildcard hk).1
    exact hf.append raw
  rw [List.flatMap_cons, ← List.append_assoc] at hj
  cases pieces with
  | nil =>
      obtain ⟨he, rfl⟩ := name_append_inj own (by simp) hn ht hj
      exact ⟨he, rfl⟩
  | cons next pieces =>
      obtain ⟨separator, hs, rfl⟩ := exists_eq_ofSeparator h.2.1 (h.1.closed hc next rfl)
      obtain ⟨he, rfl⟩ := name_append_inj own (by simpa [Piece.ofSeparator] using hs) hn ht hj
      exact ⟨he, pieces, rfl, rfl, allFit_of_ofSeparator hs h.2⟩

/-- A text that is not folded with a separator is no run of asterisks if one closes it. -/
theorem Closes.not_isStars {text tail : Text} {pieces : List Piece}
    (h : Closes leadingGlobstar tail pieces)
    (hf : IsStars text → ∀ after ∈ pieces.head?, after.kind ≠ .pathSeparator)
    (ht : tail ≠ [])
    : ¬IsStars text := by
  cases tail with
  | nil => exact absurd rfl ht
  | cons separator rest =>
      obtain ⟨others, rfl, -⟩ := h
      exact fun hs => hf hs _ rfl rfl

/-- A component that nothing is cut off from is all of the name that its text begins with. -/
theorem component_eq_ofName {name tail : Text} (hn : IsName name)
    (ht : ∀ c ∈ tail.head?, isSeparator c = true) {piece : Piece} {pieces : List Piece}
    (h : AllFit leadingGlobstar none (piece :: pieces)) (hc : piece.IsComponent)
    (hj : (piece :: pieces).flatMap Piece.raw = name ++ tail) (isLast : Bool)
    : (tail ≠ [] → ¬IsStars name)
      ∧ [piece] = (Segment.ofName leadingGlobstar isLast name).map Segment.piece
      ∧ Closes leadingGlobstar tail pieces := by
  obtain ⟨raw, kind⟩ := piece
  have empty : IsName [] := by simp [IsName]
  obtain ⟨rfl, closes⟩ : raw = name ∧ Closes leadingGlobstar tail pieces :=
    component_eq h hc empty hn ht hj
  -- Both kinds of component are the kind of the whole name, and neither of them lets the name
  -- be cut or be folded.
  obtain ⟨rfl, whole, folded⟩ : kind = .ofComponent raw
      ∧ (leadingGlobstar = true → ¬BeginsWithStars raw)
      ∧ (IsStars raw → ∀ after ∈ pieces.head?, after.kind ≠ .pathSeparator) := by
    rcases hc with hk | hk
    · obtain rfl : kind = .plain := hk
      have plain := (h.1.plain rfl).2
      refine ⟨?_, fun _ => not_beginsWithStars_of_plain plain, ?_⟩
      · rw [Kind.ofComponent, if_neg (by simpa using plain)]
      · exact fun ht => absurd ht (not_isStars_of_plain plain)
    · obtain rfl : kind = .wildcard := hk
      refine ⟨?_, fun hl => h.1.leading hl rfl, h.1.folded rfl⟩
      rw [Kind.ofComponent, if_pos (by simpa using (h.1.wildcard rfl).2)]
  refine ⟨closes.not_isStars folded, ?_, closes⟩
  rw [Segment.ofName, if_neg (by simpa using h.1.nonempty), Segment.ofComponent_whole whole]
  rfl

/-- Asterisks that are cut off, and the wildcard behind them, are all of the name that their text
begins with.
-/
theorem leading_eq_ofName {name tail : Text} (hn : IsName name)
    (ht : ∀ c ∈ tail.head?, isSeparator c = true) {count : Nat} {wildcard : Piece}
    {pieces : List Piece}
    (h : AllFit true (some { raw := List.replicate (count + 1) '*', kind := .globstar })
      (wildcard :: pieces))
    (hk : wildcard.kind = .wildcard) {rest : Text} (hw : wildcard.raw = '*' :: rest)
    (hr : rest.head? ≠ some '*')
    (hj : List.replicate (count + 1) '*' ++ (wildcard :: pieces).flatMap Piece.raw = name ++ tail)
    (isLast : Bool)
    : (tail ≠ [] → ¬IsStars name)
      ∧ [{ raw := List.replicate (count + 1) '*', kind := .globstar }, wildcard]
        = (Segment.ofName true isLast name).map Segment.piece
      ∧ Closes true tail pieces := by
  have stars : IsName (List.replicate (count + 1) '*') := by
    intro c hc
    rw [List.eq_of_mem_replicate hc]
    rfl
  obtain ⟨rfl, closes⟩ := component_eq h (Or.inr hk) stars hn ht hj
  have folded := h.1.folded hk
  rw [cutStars_replicate] at folded
  refine ⟨closes.not_isStars folded, ?_, closes⟩
  obtain ⟨raw, kind⟩ := wildcard
  obtain rfl : kind = .wildcard := hk
  obtain rfl : raw = '*' :: rest := hw
  rw [Segment.ofName, if_neg (by simp), Segment.ofComponent_stars hr]
  rfl

/-- The pieces that a text begins with are those of its first name, together with the separator
that follows the name if it is folded with one.
-/
theorem eq_ofName_append {name tail : Text} (hn : IsName name) (he : name ≠ [])
    (ht : ∀ c ∈ tail.head?, isSeparator c = true) {pieces : List Piece}
    (h : AllFit leadingGlobstar none pieces) (hj : pieces.flatMap Piece.raw = name ++ tail)
    (isLast : Bool)
    : (∃ separator rest others,
        tail = separator :: rest
        ∧ IsStars name
        ∧ pieces = { raw := name ++ [separator], kind := .globstar } :: others
        ∧ IsCanonical leadingGlobstar rest others)
      ∨ ∃ others,
        (tail ≠ [] → ¬IsStars name)
        ∧ pieces = (Segment.ofName leadingGlobstar isLast name).map Segment.piece ++ others
        ∧ Closes leadingGlobstar tail others := by
  cases pieces with
  | nil => exact absurd (List.append_eq_nil_iff.mp hj.symm).1 he
  | cons piece pieces =>
      have component (hc : piece.IsComponent) := component_eq_ofName hn ht h hc hj isLast
      cases hk : piece.kind with
      | pathSeparator =>
          obtain ⟨separator, hs, rfl⟩ := exists_eq_ofSeparator h.1 hk
          obtain ⟨c, name, rfl⟩ := List.exists_cons_of_ne_nil he
          obtain rfl : separator = c := (List.cons.inj hj).1
          exact absurd List.mem_cons_self (hn.not_mem hs)
      | plain =>
          obtain ⟨unfolded, own, closes⟩ := component (Or.inl hk)
          exact Or.inr ⟨pieces, unfolded, congrArg (· ++ pieces) own, closes⟩
      | wildcard =>
          obtain ⟨unfolded, own, closes⟩ := component (Or.inr hk)
          exact Or.inr ⟨pieces, unfolded, congrArg (· ++ pieces) own, closes⟩
      | globstar =>
          obtain ⟨raw, kind⟩ := piece
          obtain rfl : kind = .globstar := hk
          rcases (h.1.globstar rfl).2
            with ⟨stars, separator, hr, hs, hc⟩ | ⟨rfl, ⟨count, hr⟩, next, hm, hw, rest, hx, hh⟩
          · obtain rfl : raw = stars ++ [separator] := hr
            refine Or.inl ?_
            have ends := endsComponent_closed stars hc
            have cut : stars ++ separator :: pieces.flatMap Piece.raw = name ++ tail := by
              simpa using hj
            obtain ⟨rfl, rfl⟩ := name_append_inj hs.isName (by simpa using hc) hn ht cut
            exact ⟨separator, _, pieces, rfl, hs, rfl, rfl, (allFit_some_iff (by simp) ends).mp h.2⟩
          · obtain rfl : raw = List.replicate (count + 1) '*' := hr
            cases pieces with
            | nil => cases hm
            | cons wildcard pieces =>
                obtain rfl : wildcard = next := Option.some.inj hm
                obtain ⟨unfolded, own, closes⟩ := leading_eq_ofName hn ht h.2 hw hx hh hj isLast
                exact Or.inr ⟨pieces, unfolded, congrArg (· ++ pieces) own, closes⟩

/-- A separator that a text begins with is its first piece. -/
theorem eq_separator_cons {separator : Char} {rest : Text} (hs : isSeparator separator = true)
    {pieces : List Piece} (h : IsCanonical leadingGlobstar (separator :: rest) pieces)
    : ∃ others,
        pieces = .ofSeparator separator :: others
        ∧ IsCanonical leadingGlobstar rest others := by
  obtain ⟨joins, fits⟩ := h
  cases pieces with
  | nil => cases joins
  | cons piece pieces =>
      have first : piece.raw.head? = some separator := by
        obtain ⟨c, raw, hr⟩ := List.exists_cons_of_ne_nil fits.1.nonempty
        rw [List.flatMap_cons, hr] at joins
        rw [hr, (List.cons.inj joins).1]
        rfl
      obtain ⟨c, -, rfl⟩ := exists_eq_ofSeparator fits.1 (kind_of_separator fits.1 hs first)
      obtain ⟨rfl, following⟩ := List.cons.inj joins
      exact ⟨pieces, rfl, following, allFit_of_ofSeparator hs fits⟩

/-- Only the segments of an expression fit, by induction over its components. -/
theorem eq_segments {expression : Text} {pieces : List Piece}
    (h : IsCanonical leadingGlobstar expression pieces)
    : pieces = (segments leadingGlobstar expression).map Segment.piece := by
  induction expression using componentInduction generalizing pieces with
  | last name hn =>
      rw [segments_name _ hn]
      by_cases he : name = []
      · subst he
        exact eq_nil_of_allFit h.fits h.joins
      · have joins : pieces.flatMap Piece.raw = name ++ [] := by rw [h.joins, List.append_nil]
        rcases eq_ofName_append hn he (by simp) h.fits joins true
          with ⟨separator, rest, others, hc, -⟩ | ⟨others, -, rfl, rfl⟩
        · cases hc
        · rw [List.append_nil]
  | closed name separator rest hn hs ih =>
      rw [segments_closed _ _ hn hs, Segment.ofClosed, List.map_append]
      by_cases he : name = []
      · subst he
        obtain ⟨others, rfl, ho⟩ := eq_separator_cons hs h
        rw [ih ho]
        rfl
      · rcases eq_ofName_append hn he (by simpa using hs) h.fits h.joins false
          with ⟨_, _, others, hc, ht, rfl, ho⟩ | ⟨_, ht, rfl, others, rfl, ho⟩
        · cases hc
          rw [if_pos ht, ih ho]
          rfl
        · rw [if_neg (ht (by simp)), ih ho, List.map_append, List.append_assoc]
          rfl

end

/-- Raw texts and kinds of the parts are the only pieces of an expression that keep the laws: the
segments keep them, and what keeps them is cut as the segments are.
-/
theorem isCanonical_iff_eq_parts (options : Options) (expression : Text) (pieces : List Piece)
    : IsCanonical options.leadingGlobstar expression pieces
      ↔ pieces = (parts options expression).map Part.piece := by
  have same : (parts options expression).map Part.piece
      = (segments options.leadingGlobstar expression).map Segment.piece := by
    rw [parts, List.map_map]
    rfl
  rw [same]
  refine ⟨eq_segments, fun h => ?_⟩
  subst h
  refine ⟨?_, allFit_segments expression⟩
  rw [List.flatMap_map]
  exact flatMap_raw_segments ..

end PathGlob
