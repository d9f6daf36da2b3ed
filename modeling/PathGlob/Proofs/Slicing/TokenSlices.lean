import PathGlob.Proofs.Slicing.TokenLaws
import PathGlob.Slicing

/-! Tokens that are sliced off one after another. Every slice is made between characters, so it fails
only if the bound is past the end of the text or inside a character.
-/

namespace PathGlob

-----------------------------------------------------------------------------------------
-- Where a text cannot be cut
-----------------------------------------------------------------------------------------

namespace Text

/-- The offset lies inside a character: behind where it begins and in front of where it ends. -/
def IsInside (offset : Nat) (text : Text) : Prop :=
  ∃ before c after,
    text = before ++ c :: after
    ∧ byteLength before < offset
    ∧ offset < byteLength before + c.utf8Size

/-- A text divides at an offset unless this is past its end or inside a character, by induction on
the text.
-/
theorem exists_division (offset : Nat) (text : Text)
    : (∃ left right, text = left ++ right ∧ byteLength left = offset)
      ∨ byteLength text < offset
      ∨ IsInside offset text := by
  induction text generalizing offset with
  | nil =>
      rcases Nat.eq_zero_or_pos offset with rfl | positive
      · exact Or.inl ⟨[], [], rfl, rfl⟩
      · exact Or.inr (Or.inl positive)
  | cons c text ih =>
      rcases Nat.eq_zero_or_pos offset with rfl | positive
      · exact Or.inl ⟨[], c :: text, rfl, rfl⟩
      · rcases Nat.lt_or_ge offset c.utf8Size with inside | behind
        · exact Or.inr (Or.inr ⟨[], c, text, rfl, positive, by simpa using inside⟩)
        · rcases ih (offset - c.utf8Size) with cut | past | inside
          · obtain ⟨left, right, rfl, hl⟩ := cut
            exact Or.inl ⟨c :: left, right, rfl, by rw [byteLength_cons]; omega⟩
          · refine Or.inr (Or.inl ?_)
            rw [byteLength_cons]
            omega
          · obtain ⟨before, d, after, rfl, inside⟩ := inside
            refine Or.inr (Or.inr ⟨c :: before, d, after, rfl, ?_⟩)
            rw [byteLength_cons]
            omega

/-- A division is between characters. -/
theorem not_isInside_append (left right : Text)
    : ¬IsInside (byteLength left) (left ++ right) := by
  rintro ⟨before, c, after, he, hb, hc⟩
  rcases List.append_eq_append_iff.mp he with ⟨middle, rfl, -⟩ | ⟨middle, rfl, hm⟩
  · rw [byteLength_append] at hb
    omega
  · cases middle with
    | nil => simp at hb
    | cons d middle =>
        cases hm
        simp only [byteLength_append, byteLength_cons] at hc
        omega

/-- There is no cut past the end of a text or inside a character, and one at every other offset. -/
theorem splitAtByte?_eq_none_iff {offset : Nat} {text : Text}
    : splitAtByte? offset text = none ↔ byteLength text < offset ∨ IsInside offset text := by
  constructor
  · intro h
    rcases exists_division offset text with ⟨left, right, ht, hl⟩ | no
    · cases h.symm.trans (splitAtByte?_eq_some_iff.mpr ⟨ht, hl⟩)
    · exact no
  · intro no
    cases h : splitAtByte? offset text with
    | none => rfl
    | some cut =>
        obtain ⟨ht, hl⟩ := splitAtByte?_eq_some_iff.mp h
        subst ht hl
        rcases no with past | inside
        · rw [byteLength_append] at past
          omega
        · exact absurd inside (not_isInside_append cut.1 cut.2)

theorem splitAtByte?_append (left right : Text)
    : splitAtByte? (byteLength left) (left ++ right) = some (left, right) :=
  splitAtByte?_eq_some_iff.mpr ⟨rfl, rfl⟩

end Text

-----------------------------------------------------------------------------------------
-- One slice after another
-----------------------------------------------------------------------------------------

namespace Delimiters

variable {delimiters : Delimiters} {c : Char} {word rest : Text}

/-- The search for a delimiter stops behind a word, by induction on the word. -/
theorem IsWord.offsetOf? (hw : delimiters.IsWord word)
    (hr : ∀ d ∈ rest.head?, delimiters.contains d = true)
    : (Text.offsetOf? delimiters.contains (word ++ rest)).getD (Text.byteLength (word ++ rest))
      = Text.byteLength word := by
  induction word with
  | nil =>
      cases rest with
      | nil => rfl
      | cons d rest => simp [Text.offsetOf?, hr d rfl]
  | cons c word ih =>
      obtain ⟨hc, hw⟩ := isWord_cons_iff.mp hw
      simp only [List.cons_append, Text.offsetOf?, hc, Bool.false_eq_true, if_false,
        Text.byteLength_cons, Option.getD_map, ih hw]

theorem IsFirst.firstLength_eq (hf : delimiters.IsFirst c word rest)
    : delimiters.firstLength (c :: (word ++ rest)) = Text.byteLength (c :: word) := by
  cases hc : delimiters.contains c with
  | true =>
      simp only [firstLength, hc, if_true, hf.eq_nil hc, Text.byteLength_cons, Text.byteLength_nil,
        Nat.add_zero]
  | false =>
      obtain ⟨hw, hr⟩ := hf.isWord hc
      simp only [firstLength, hc, Bool.false_eq_true, if_false]
      exact hw.offsetOf? hr

end Delimiters

namespace TokenSlicer

variable {delimiters : Delimiters} {c : Char} {word rest : Text}

/-- At the end of what has been passed, the first token of what is left is sliced off. -/
theorem next?_first (passed : Text) (hf : delimiters.IsFirst c word rest)
    : next?
        {
          delimiters
          text := passed ++ c :: (word ++ rest)
          position := Text.byteLength passed
        }
      = some (
          some (delimiters.firstToken (Text.byteLength passed) c word rest),
          {
            delimiters
            text := passed ++ c :: (word ++ rest)
            position := Text.byteLength (passed ++ c :: word)
          }
        ) := by
  have cut : Text.splitAtByte? (Text.byteLength (c :: word)) (c :: (word ++ rest))
      = some (c :: word, rest) :=
    Text.splitAtByte?_append (c :: word) rest
  have whole : (Text.byteLength (c :: word) == Text.byteLength (c :: (word ++ rest)))
      = rest.isEmpty := by
    rw [← List.cons_append, Text.byteLength_append]
    cases rest with
    | nil => simp
    | cons d rest => simp [Nat.ne_of_gt d.utf8Size_pos]
  simp only [next?, Text.splitAtByte?_append, Option.bind_eq_bind, Option.bind_some,
    hf.firstLength_eq, cut, whole, Token.stop, Text.byteLength_append]
  rfl

theorem rest?_of_token {slicer later : TokenSlicer} {token : Token}
    (h : slicer.next? = some (some token, later))
    : slicer.rest? = later.rest?.map fun tokens => token :: tokens := by
  rw [rest?]
  split <;> simp_all

theorem rest?_of_end {slicer : TokenSlicer} (h : slicer.next? = some (none, slicer))
    : slicer.rest? = some [] := by
  rw [rest?]
  split <;> simp_all

/-- What is left of a text is sliced into its tokens, by induction over them. -/
theorem rest?_eq (delimiters : Delimiters) (passed text : Text)
    : rest? { delimiters, text := passed ++ text, position := Text.byteLength passed }
      = some (tokensAt delimiters (Text.byteLength passed) text) := by
  induction text using Delimiters.tokenInduction delimiters generalizing passed with
  | nil =>
      refine rest?_of_end ?_
      simp only [next?, Text.splitAtByte?_append, Option.bind_eq_bind, Option.bind_some]
      rfl
  | first c word rest hf ih =>
      have later := ih (passed ++ c :: word)
      rw [List.append_assoc, List.cons_append] at later
      rw [rest?_of_token (next?_first passed hf), later, hf.tokensAt_eq, Text.byteLength_append,
        Option.map_some]

end TokenSlicer

-----------------------------------------------------------------------------------------
-- The tokens within a bound
-----------------------------------------------------------------------------------------

namespace Slicing

theorem tokensWithin?_eq (delimiters : Delimiters) (bound : Nat) (text : Text)
    : tokensWithin? delimiters bound text = PathGlob.tokensWithin? delimiters bound text := by
  have sliced (first : Text)
      : (TokenSlicer.start delimiters first).rest? = some (tokens delimiters first) := by
    have whole := TokenSlicer.rest?_eq delimiters [] first
    rwa [Text.byteLength_nil, tokensAt_zero, List.nil_append] at whole
  simp only [tokensWithin?, PathGlob.tokensWithin?, sliced, Option.map_eq_bind]
  rfl

theorem tokensWithin?_append (delimiters : Delimiters) (first rest : Text)
    : tokensWithin? delimiters (Text.byteLength first) (first ++ rest)
      = some (tokens delimiters first) := by
  rw [tokensWithin?_eq, PathGlob.tokensWithin?, Text.splitAtByte?_append, Option.map_some]

theorem tokens?_eq (delimiters : Delimiters) (text : Text)
    : tokens? delimiters text = some (tokens delimiters text) := by
  have whole := tokensWithin?_append delimiters text []
  rwa [List.append_nil] at whole

end Slicing

/-- Slices answer with the tokens of the first `bound` bytes of a text, which are the only list in
accord with them, and fail exactly if the bound is past the end of the text or inside a character.
-/
theorem tokensWithin?_exact (delimiters : Delimiters) (bound : Nat) (text : Text)
    : Slicing.tokensWithin? delimiters bound text = tokensWithin? delimiters bound text
      ∧ (tokensWithin? delimiters bound text = none
        ↔ Text.byteLength text < bound ∨ Text.IsInside bound text)
      ∧ ∀ found,
        tokensWithin? delimiters bound text = some found
        ↔ ∃ first rest,
            text = first ++ rest
            ∧ Text.byteLength first = bound
            ∧ IsTokenized delimiters 0 first found := by
  refine ⟨Slicing.tokensWithin?_eq delimiters bound text, ?_, ?_⟩
  · rw [tokensWithin?, Option.map_eq_none_iff, Text.splitAtByte?_eq_none_iff]
  · intro found
    simp only [tokensWithin?, Option.map_eq_some_iff, Prod.exists, Text.splitAtByte?_eq_some_iff,
      isTokenized_iff, tokensAt_zero, and_assoc]
    constructor
    · rintro ⟨first, rest, ht, hb, rfl⟩
      exact ⟨first, rest, ht, hb, rfl⟩
    · rintro ⟨first, rest, ht, hb, rfl⟩
      exact ⟨first, rest, ht, hb, rfl⟩

end PathGlob
