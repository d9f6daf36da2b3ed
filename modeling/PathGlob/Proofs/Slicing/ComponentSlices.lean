import PathGlob.Proofs.Slicing.TokenSlices

/-! Slices within one component: in front of the last of its leading asterisks, and in front of a
dot that ends it. Neither asterisks nor dots take more than one byte, so both are between characters.
-/

namespace PathGlob

-----------------------------------------------------------------------------------------
-- Leading asterisks, counted as bytes
-----------------------------------------------------------------------------------------

/-- The first byte of a character is an asterisk only if the character is, by the ranges of UTF-8. -/
theorem exists_utf8EncodeChar_eq (c : Char)
    : ∃ byte more,
        String.utf8EncodeChar c = byte :: more ∧ (byte = '*'.toUInt8 ↔ c = '*') := by
  have starByte (value : Nat) : UInt8.ofNat value = '*'.toUInt8 ↔ value % 256 = 42 := by
    rw [← UInt8.toNat_inj, UInt8.toNat_ofNat']
    rfl
  have star : c = '*' ↔ c.val.toNat = 42 := by
    rw [← Char.toNat_inj]
    rfl
  fun_cases String.utf8EncodeChar c with
  | case1 value | case2 value | case3 value | case4 value =>
      refine ⟨_, _, rfl, ?_⟩
      rw [starByte, star]
      omega

namespace Slicing

/-- Bytes that are asterisks are counted as the characters are, by induction on the text. -/
theorem leadingStars_eq (text : Text)
    : leadingStars text = (text.takeWhile (· == '*')).length := by
  unfold leadingStars
  induction text with
  | nil => rfl
  | cons c text ih =>
      obtain ⟨byte, more, encoded, star⟩ := exists_utf8EncodeChar_eq c
      cases hc : c == '*' with
      | true =>
          cases eq_of_beq hc
          simp only [List.takeWhile_cons, hc, if_true, List.length_cons, ← ih]
          rfl
      | false =>
          have other : (byte == '*'.toUInt8) = false := by
            rw [beq_eq_false_iff_ne] at hc ⊢
            exact fun same => hc (star.mp same)
          simp only [List.flatMap_cons, encoded, List.cons_append, List.takeWhile_cons, other, hc,
            Bool.false_eq_true, if_false, List.length_nil]

end Slicing

/-- As many bytes as characters are taken from leading asterisks, by induction on the text. -/
theorem byteLength_take_stars {count : Nat} {text : Text}
    (h : count ≤ (text.takeWhile (· == '*')).length)
    : Text.byteLength (text.take count) = count := by
  induction count generalizing text with
  | zero => rfl
  | succ count ih =>
      cases text with
      | nil => cases h
      | cons c text =>
          cases hc : c == '*' with
          | false =>
              simp only [List.takeWhile_cons, hc] at h
              cases h
          | true =>
              simp only [List.takeWhile_cons, hc, if_true, List.length_cons] at h
              cases eq_of_beq hc
              rw [List.take_succ_cons, Text.byteLength_cons, ih (Nat.le_of_succ_le_succ h),
                Nat.add_comm]
              rfl

/-- A text is what is left of it without a dot that ends it, and that dot. -/
theorem exists_withoutDot_append (text : Text)
    : ∃ dot, text = text.withoutDot ++ dot := by
  unfold Text.withoutDot
  split
  next h => exact ⟨['.'], (List.dropLast_append_getLast? '.' h).symm⟩
  next => exact ⟨[], (List.append_nil text).symm⟩

-----------------------------------------------------------------------------------------
-- Slices of a component
-----------------------------------------------------------------------------------------

namespace Slicing

theorem ofComponent?_eq (leadingGlobstar isLast : Bool) (text : Text)
    : ofComponent? leadingGlobstar isLast text
      = some
        ((Segment.ofComponent leadingGlobstar isLast text).1
          :: (Segment.ofComponent leadingGlobstar isLast text).2) := by
  simp only [ofComponent?, Segment.ofComponent, leadingStars_eq]
  split
  next =>
    have cut : Text.splitAtByte? ((text.takeWhile (· == '*')).length - 1) text
        = some (
          text.take ((text.takeWhile (· == '*')).length - 1),
          text.drop ((text.takeWhile (· == '*')).length - 1)
        ) :=
      Text.splitAtByte?_eq_some_iff.mpr
        ⟨(List.take_append_drop _ text).symm, byteLength_take_stars (Nat.sub_le _ 1)⟩
    rw [cut]
    rfl
  next => rfl

theorem ofWildcard?_append (isDotless : Bool) (first rest : Text)
    : ofWildcard? isDotless (Text.byteLength first) (first ++ rest)
      = some (Item.ofWildcard isDotless first) := by
  rw [ofWildcard?, tokensWithin?_append]
  rfl

/-- Whichever rule holds for a dot, the bound for it is a cut. -/
theorem items?_eq (trailing : TrailingDot) (segment : Segment)
    : items? trailing segment = some (segment.items trailing) := by
  obtain ⟨raw, kind, isLast⟩ := segment
  obtain ⟨dot, kept⟩ := exists_withoutDot_append raw
  have undotted : ofWildcard? true (Text.byteLength raw.withoutDot) raw
      = some (Item.ofWildcard true raw.withoutDot) := by
    have cut := ofWildcard?_append true raw.withoutDot dot
    rwa [← kept] at cut
  have whole : ofWildcard? false (Text.byteLength raw) raw
      = some (Item.ofWildcard false raw) := by
    have cut := ofWildcard?_append false raw []
    rwa [List.append_nil] at cut
  have literal : Text.splitAtByte? (Text.byteLength raw.withoutDot) raw
      = some (raw.withoutDot, dot) :=
    Text.splitAtByte?_eq_some_iff.mpr ⟨kept, rfl⟩
  cases kind with
  | pathSeparator | globstar => rfl
  | wildcard =>
      cases isLast with
      | false => exact whole
      | true =>
          cases trailing with
          | literal => exact whole
          | noExtension _ => exact undotted
  | plain =>
      cases isLast with
      | false => rfl
      | true =>
          cases trailing with
          | literal => rfl
          | noExtension isDropped =>
              cases isDropped with
              | false => rfl
              | true =>
                  simp only [items?, literal]
                  rfl

theorem ofSegment?_eq (trailing : TrailingDot) (segment : Segment)
    : ofSegment? trailing segment = some (Part.ofSegment trailing segment) := by
  rw [ofSegment?, items?_eq]
  rfl

end Slicing

end PathGlob
