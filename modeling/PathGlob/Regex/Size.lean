import PathGlob.Regex.RoundTrip

/-! Regular expressions built from their written form within a bound on their size. The size
adds up over the terms, and neither the anchors nor the group take any of it.
-/

namespace PathGlob

/-- The bytes that a set takes once it is built: those of a character count one by one, and
those of a bracketed set depend on whether its members are the ones accepted.
-/
def CharSet.size : CharSet → Nat
  | only c => 32 * c.utf8Size
  | listed _ => 80
  | unlisted _ => 1036

/-- The bytes that a repetition adds to what it repeats. -/
def repetitionSize : Nat :=
  40

/-- The bytes that a term takes once it is built. -/
def Term.size : Term → Nat
  | one set => set.size
  | many set => set.size + repetitionSize
  | loop inner closing => inner.size + repetitionSize + closing.size + repetitionSize

namespace Regex

/-- The bytes that a regular expression takes once it is built. -/
def size (regex : Regex) : Nat :=
  (regex.lead ++ regex.stem).foldr (fun term size => term.size + size) 0

/-- The size that no regular expression may exceed. -/
def sizeLimit : Nat :=
  10 * 1024 * 1024

/-- Why a regular expression cannot be built. -/
inductive BuildError where
  /-- The text is not the written form of any regular expression. -/
  | malformed
  /-- The regular expression exceeds the size limit. -/
  | tooLarge
deriving DecidableEq

/-- What is wrong, in words. -/
def BuildError.message : BuildError → String
  | malformed => "Pattern is not the written form of a regular expression."
  | tooLarge => s!"Compiled regex exceeds size limit of {sizeLimit} bytes."

/-- Reads a regular expression and checks its size. -/
def build (pattern : Text) : Except BuildError Regex :=
  match read? pattern with
  | none => .error .malformed
  | some regex => if regex.size ≤ sizeLimit then .ok regex else .error .tooLarge

/-- A written form can be built exactly within the size limit, since reading undoes writing. -/
@[simp]
theorem build_text (regex : Regex)
    : build regex.text = if regex.size ≤ sizeLimit then .ok regex else .error .tooLarge := by
  rw [build, read?_text]

end Regex

end PathGlob
