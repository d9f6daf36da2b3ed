import PathGlob.Regex.Basic

/-! Regular expressions read from their written form. Reading takes the one term that a text
begins with, again and again, and refuses what writing does not produce.
-/

namespace PathGlob

/-- What follows a beginning is no longer than the text. -/
theorem Text.length_le_of_after? {beginning text rest : Text}
    (h : after? beginning text = some rest)
    : rest.length ≤ text.length := by
  simp [after?_eq_some_iff.mp h]

namespace CharSet

/-- Reads a character that means itself, as the counterpart of `escape`. -/
def readChar? (special : List Char) : Text → Option (Char × Text)
  | '\\' :: c :: rest => if special.contains c then some (c, rest) else none
  | c :: rest => if special.contains c then none else some (c, rest)
  | [] => none

/-- Reading a character shortens the text. -/
theorem length_lt_of_readChar? {special : List Char} {text rest : Text} {c : Char}
    (h : readChar? special text = some (c, rest))
    : rest.length < text.length := by
  fun_cases readChar? special text <;> grind [readChar?]

/-- Reads characters up to the bracket that closes their list. -/
def readMembers? (members text : Text) : Option (Text × Text) :=
  match _ : readChar? bracketMetas text with
  | some (c, rest) => readMembers? (c :: members) rest
  | none => (Text.after? [']'] text).map fun rest => (members.reverse, rest)
termination_by text.length
decreasing_by exact length_lt_of_readChar? ‹_›

/-- Reads the set that the text begins with. -/
def read? : Text → Option (CharSet × Text)
  | '[' :: '^' :: rest =>
      (readMembers? [] rest).map fun (members, rest) => (unlisted members, rest)
  | '[' :: rest => (readMembers? [] rest).map fun (members, rest) => (listed members, rest)
  | text => (readChar? metas text).map fun (c, rest) => (only c, rest)

/-- Reading members does not lengthen the text, by induction on the reading. -/
theorem length_le_of_readMembers? {members text found rest : Text}
    (h : readMembers? members text = some (found, rest))
    : rest.length ≤ text.length := by
  fun_induction readMembers? members text with
  | case1 _ _ _ _ hc ih => exact Nat.le_trans (ih h) (Nat.le_of_lt (length_lt_of_readChar? hc))
  | case2 =>
      obtain ⟨_, ha, he⟩ := Option.map_eq_some_iff.mp h
      cases he
      exact Text.length_le_of_after? ha

/-- Reading a set shortens the text. -/
theorem length_lt_of_read? {text rest : Text} {set : CharSet}
    (h : read? text = some (set, rest))
    : rest.length < text.length := by
  unfold read? at h
  split at h <;> obtain ⟨_, hr, he⟩ := Option.map_eq_some_iff.mp h <;> cases he
  · exact Nat.lt_succ_of_le (Nat.le_succ_of_le (length_le_of_readMembers? hr))
  · exact Nat.lt_succ_of_le (length_le_of_readMembers? hr)
  · exact length_lt_of_readChar? hr

end CharSet

namespace Term

/-- Reads the term that the text begins with. -/
def read? (text : Text) : Option (Term × Text) :=
  match Text.after? ['(', '?', ':'] text with
  -- No set is written with these marks at its front, so what they open is a loop.
  | some body => do
      let (inner, rest) ← CharSet.read? body
      let (closing, rest) ← (Text.after? ['*'] rest).bind CharSet.read?
      let rest ← Text.after? [')', '*'] rest
      return (loop inner closing, rest)
  | none => do
      let (set, rest) ← CharSet.read? text
      match rest with
      | '*' :: rest => return (many set, rest)
      | rest => return (one set, rest)

/-- Reading a term shortens the text. -/
theorem length_lt_of_read? {text rest : Text} {term : Term}
    (h : read? text = some (term, rest))
    : rest.length < text.length := by
  unfold read? at h
  split at h
  next body hb =>
    simp only [Option.bind_eq_bind, Option.bind_eq_some_iff] at h
    obtain ⟨⟨_, afterInner⟩, hi, ⟨_, afterClosing⟩, ⟨_, hs, hc⟩, _, he, heq⟩ := h
    cases heq
    have := Text.length_le_of_after? hb
    have := CharSet.length_lt_of_read? hi
    have := Text.length_le_of_after? hs
    have := CharSet.length_lt_of_read? hc
    have := Text.length_le_of_after? he
    dsimp only at *
    omega
  next =>
    simp only [Option.bind_eq_bind, Option.bind_eq_some_iff] at h
    obtain ⟨⟨_, afterSet⟩, hs, h⟩ := h
    have := CharSet.length_lt_of_read? hs
    split at h <;> cases h <;> grind

/-- Reads terms for as long as the text begins with one. -/
def readMany (terms : List Term) (text : Text) : List Term × Text :=
  match _ : read? text with
  | some (term, rest) => readMany (term :: terms) rest
  | none => (terms.reverse, text)
termination_by text.length
decreasing_by exact length_lt_of_read? ‹_›

end Term

namespace Regex

/-- Reads what lies between the anchors. -/
def readBody? (anchored : Bool) (text : Text) : Option Regex := do
  let (lead, rest) := Term.readMany [] text
  let (stem, rest) := Term.readMany [] (← Text.after? stemOpening rest)
  let rest ← Text.after? [')'] rest
  guard (rest = if anchored then ['$'] else [])
  return { anchored, lead, stem }

/-- Reads a whole text as a regular expression. -/
def read? : Text → Option Regex
  | '^' :: text => readBody? true text
  | text => readBody? false text

end Regex

end PathGlob
