/-! Texts of characters measured and cut in UTF-8 bytes, as offsets and bounds are given.
A cut succeeds exactly between characters, and its two sides join to the text again.
-/

namespace PathGlob

/-- A text as its characters, each one Unicode scalar value. -/
abbrev Text := List Char

/-- Either slash separates the components of a path. -/
def isSeparator (c : Char) : Bool :=
  c == '/' || c == '\\'

/-- An asterisk or a question mark stands for other text. -/
def isWildcard (c : Char) : Bool :=
  c == '*' || c == '?'

/-- A half-open range of byte offsets. -/
structure Span where
  start : Nat
  stop : Nat
deriving DecidableEq

namespace Text

/-- The number of bytes that the text takes in UTF-8. -/
def byteLength (text : Text) : Nat :=
  text.foldr (fun c length => c.utf8Size + length) 0

/-- Cuts the text at a byte offset, with the characters already passed kept in reverse. -/
def splitAtByteFrom? (passed : Text) : Nat → Text → Option (Text × Text)
  | 0, rest => some (passed.reverse, rest)
  | _ + 1, [] => none
  | offset + 1, c :: rest =>
      if c.utf8Size ≤ offset + 1 then
        splitAtByteFrom? (c :: passed) (offset + 1 - c.utf8Size) rest
      else
        none

/-- Cuts the text at a byte offset; there is no cut past its end or inside a character. -/
def splitAtByte? (offset : Nat) (text : Text) : Option (Text × Text) :=
  splitAtByteFrom? [] offset text

/-- The part of the text that a span covers, if both its ends are cuts in order. -/
def slice? (span : Span) (text : Text) : Option Text := do
  let (before, _) ← splitAtByte? span.stop text
  let (_, inside) ← splitAtByte? span.start before
  return inside

/-- What follows the given beginning in a text that has it. -/
def after? : Text → Text → Option Text
  | [], text => some text
  | _ :: _, [] => none
  | c :: beginning, d :: text => if c = d then after? beginning text else none

@[simp]
theorem byteLength_nil
    : byteLength [] = 0 :=
  rfl

@[simp]
theorem byteLength_cons (c : Char) (text : Text)
    : byteLength (c :: text) = c.utf8Size + byteLength text :=
  rfl

/-- Lengths add up along concatenation, by induction on the left text. -/
@[simp]
theorem byteLength_append (left right : Text)
    : byteLength (left ++ right) = byteLength left + byteLength right := by
  induction left with
  | nil => simp
  | cons c left ih => simp [ih, Nat.add_assoc]

/-- Only the empty text takes no bytes, since every character takes at least one. -/
theorem byteLength_eq_zero_iff {text : Text}
    : byteLength text = 0 ↔ text = [] := by
  cases text with
  | nil => simp
  | cons c text => simp [Nat.ne_of_gt c.utf8Size_pos]

/-- Of two beginnings of one text, the one with fewer characters has fewer bytes. -/
theorem byteLength_lt_of_append_eq {left right rest more : Text}
    (he : left ++ rest = right ++ more) (hl : left.length < right.length)
    : byteLength left < byteLength right := by
  rcases List.append_eq_append_iff.mp he with ⟨middle, rfl, -⟩ | ⟨middle, rfl, -⟩
  · cases middle with
    | nil => simp at hl
    | cons c middle =>
        have positive := c.utf8Size_pos
        rw [byteLength_append, byteLength_cons]
        omega
  · rw [List.length_append] at hl
    omega

/-- Two beginnings of one text that take the same number of bytes are the same. -/
theorem append_inj_of_byteLength_eq {left right rest more : Text}
    (he : left ++ rest = right ++ more) (hb : byteLength left = byteLength right)
    : left = right ∧ rest = more := by
  apply List.append_inj he
  apply Nat.le_antisymm
  · apply Nat.le_of_not_lt
    intro h
    exact absurd hb (Nat.ne_of_gt (byteLength_lt_of_append_eq he.symm h))
  · apply Nat.le_of_not_lt
    intro h
    exact absurd hb (Nat.ne_of_lt (byteLength_lt_of_append_eq he h))

/-- A cut divides the text still to be passed at the offset, by induction on the cutting. -/
theorem splitAtByteFrom?_eq_some_iff {passed text left right : Text} {offset : Nat}
    : splitAtByteFrom? passed offset text = some (left, right) ↔
        ∃ middle, left = passed.reverse ++ middle ∧ text = middle ++ right
          ∧ byteLength middle = offset := by
  fun_induction splitAtByteFrom? passed offset text with
  | case1 passed rest =>
      simp only [byteLength_eq_zero_iff, Option.some.injEq, Prod.mk.injEq]
      constructor
      · rintro ⟨rfl, rfl⟩
        exact ⟨[], by simp⟩
      · rintro ⟨_, rfl, rfl, rfl⟩
        simp
  | case2 => simp_all
  | case3 passed offset c rest h ih =>
      rw [ih]
      constructor
      · rintro ⟨middle, rfl, rfl, hl⟩
        refine ⟨c :: middle, by simp, by simp, ?_⟩
        rw [byteLength_cons, hl, Nat.add_sub_cancel' h]
      · rintro ⟨middle, rfl, ht, hl⟩
        cases middle with
        | nil => cases hl
        | cons d middle =>
            cases ht
            rw [byteLength_cons] at hl
            exact ⟨middle, by simp, rfl, by omega⟩
  | case4 passed offset c rest h =>
      simp only [reduceCtorEq, false_iff]
      rintro ⟨middle, rfl, ht, hl⟩
      cases middle with
      | nil => cases hl
      | cons d middle =>
          cases ht
          rw [byteLength_cons] at hl
          omega

/-- A cut succeeds exactly where the text divides into sides of the lengths asked for. -/
theorem splitAtByte?_eq_some_iff {text left right : Text} {offset : Nat}
    : splitAtByte? offset text = some (left, right) ↔
        text = left ++ right ∧ byteLength left = offset := by
  simp [splitAtByte?, splitAtByteFrom?_eq_some_iff]

/-- A slice is what lies between two cuts, by the law of cuts at either end. -/
theorem slice?_eq_some_iff {text inside : Text} {span : Span}
    : slice? span text = some inside ↔
        ∃ before after, text = before ++ inside ++ after ∧ byteLength before = span.start
          ∧ byteLength (before ++ inside) = span.stop := by
  simp only [slice?, Option.bind_eq_bind, Option.bind_eq_some_iff, Prod.exists,
    splitAtByte?_eq_some_iff]
  constructor
  · rintro ⟨_, after, ⟨rfl, hs⟩, before, _, ⟨rfl, hb⟩, he⟩
    cases he
    exact ⟨before, after, rfl, hb, hs⟩
  · rintro ⟨before, after, rfl, hb, hs⟩
    exact ⟨before ++ inside, after, ⟨rfl, hs⟩, before, inside, ⟨rfl, hb⟩, rfl⟩

/-- What follows a beginning is exactly what was put after it. -/
theorem after?_eq_some_iff {beginning text rest : Text}
    : after? beginning text = some rest ↔ text = beginning ++ rest := by
  fun_induction after? beginning text <;> simp_all [eq_comm]

end Text

end PathGlob
