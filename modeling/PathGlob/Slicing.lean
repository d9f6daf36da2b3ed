import PathGlob.Glob

/-! Glob expressions read by slices at byte offsets. A slice fails past the end of its text and inside
a character, and whatever is read with it fails then too.
-/

namespace PathGlob

-----------------------------------------------------------------------------------------
-- Tokens
-----------------------------------------------------------------------------------------

/-- The byte offset of the first character that is accepted, if there is one. -/
def Text.offsetOf? (accepts : Char → Bool) : Text → Option Nat
  | [] => none
  | c :: rest =>
      if accepts c then some 0 else (offsetOf? accepts rest).map fun offset => c.utf8Size + offset

/-- The bytes of the token that a text begins with: those of a delimiter, or those in front of the
next delimiter.
-/
def Delimiters.firstLength (delimiters : Delimiters) : Text → Nat
  | [] => 0
  | c :: rest =>
      if delimiters.contains c then
        c.utf8Size
      else
        (Text.offsetOf? delimiters.contains (c :: rest)).getD (Text.byteLength (c :: rest))

theorem Delimiters.firstLength_pos (delimiters : Delimiters) (c : Char) (rest : Text)
    : 0 < delimiters.firstLength (c :: rest) := by
  have size := c.utf8Size_pos
  cases hc : delimiters.contains c with
  | true => simpa only [firstLength, hc, if_true]
  | false =>
      simp only [firstLength, Text.offsetOf?, hc, Bool.false_eq_true, if_false]
      cases Text.offsetOf? delimiters.contains rest with
      | none => exact Nat.add_pos_left size _
      | some offset => exact Nat.add_pos_left size _

/-- A place in the tokens of a text: the byte offset up to which it has been read. -/
structure TokenSlicer where
  delimiters : Delimiters
  text : Text
  position : Nat

namespace TokenSlicer

/-- The place before the first token of a text. -/
def start (delimiters : Delimiters) (text : Text) : TokenSlicer where
  delimiters
  text
  position := 0

/-- Slices the next token off what is left of the text, unless nothing is left. -/
def next? (slicer : TokenSlicer) : Option (Option Token × TokenSlicer) := do
  let (_, rest) ← slicer.text.splitAtByte? slicer.position
  match rest with
  | [] => return (none, slicer)
  | first :: _ =>
      let isDelimiter := slicer.delimiters.contains first
      let length := slicer.delimiters.firstLength rest
      let (word, _) ← rest.splitAtByte? length
      let token := {
        text := word
        start := slicer.position
        isDelimiter
        isLast := !isDelimiter && length == Text.byteLength rest
      }
      return (some token, { slicer with position := token.stop })

/-- The number of bytes that have not been read. -/
def remaining (slicer : TokenSlicer) : Nat :=
  Text.byteLength slicer.text - slicer.position

/-- Every token that is read takes bytes of the text, and no more than it has. -/
theorem remaining_lt_of_next? {slicer later : TokenSlicer} {token : Token}
    (h : slicer.next? = some (some token, later))
    : later.remaining < slicer.remaining := by
  simp only [next?, Option.bind_eq_bind, Option.bind_eq_some_iff, Prod.exists,
    Text.splitAtByte?_eq_some_iff] at h
  obtain ⟨before, rest, ⟨ht, hb⟩, h⟩ := h
  cases rest with
  | nil => cases h
  | cons c rest =>
      simp only [Option.bind_eq_some_iff, Prod.exists, Text.splitAtByte?_eq_some_iff] at h
      obtain ⟨word, more, ⟨hr, hw⟩, h⟩ := h
      cases h
      have positive := slicer.delimiters.firstLength_pos c rest
      have whole : Text.byteLength slicer.text
          = slicer.position + (Text.byteLength word + Text.byteLength more) := by
        simp only [ht, hr, Text.byteLength_append, hb]
      simp only [remaining, Token.stop]
      omega

/-- Slices off all tokens that are left. -/
def rest? (slicer : TokenSlicer) : Option (List Token) :=
  match _ : slicer.next? with
  | none => none
  | some (none, _) => some []
  | some (some token, later) => later.rest?.map fun tokens => token :: tokens
termination_by slicer.remaining
decreasing_by exact remaining_lt_of_next? ‹_›

end TokenSlicer

namespace Slicing

/-- The tokens of the first `bound` bytes of a text, which are sliced off first. -/
def tokensWithin? (delimiters : Delimiters) (bound : Nat) (text : Text) : Option (List Token) := do
  let (first, _) ← text.splitAtByte? bound
  (TokenSlicer.start delimiters first).rest?

/-- The tokens of a text. -/
def tokens? (delimiters : Delimiters) (text : Text) : Option (List Token) :=
  tokensWithin? delimiters (Text.byteLength text) text

-----------------------------------------------------------------------------------------
-- Segments
-----------------------------------------------------------------------------------------

/-- The number of bytes at the start of a text that are asterisks. -/
def leadingStars (text : Text) : Nat :=
  ((text.flatMap String.utf8EncodeChar).takeWhile fun byte => byte == '*'.toUInt8).length

/-- The segments of a component, which is sliced in front of the last of its leading asterisks if
leading globstars are allowed.
-/
def ofComponent? (leadingGlobstar isLast : Bool) (text : Text) : Option (List Segment) :=
  let stars := leadingStars text
  if leadingGlobstar && 2 ≤ stars then do
    let (tree, wildcard) ← text.splitAtByte? (stars - 1)
    return [.ofTree tree, { raw := wildcard, kind := .wildcard, isLast }]
  else
    some [{ raw := text, kind := .ofComponent text, isLast }]

/-- The segments of a run of tokens. Tokens that are folded are sliced as one from the expression.
-/
def ofRun? (leadingGlobstar : Bool) (expression : Text) (run : Run Token)
    : Option (List Segment) :=
  if 1 < run.count then do
    let raw ← expression.slice? { start := run.first.start, stop := run.last.stop }
    return [.ofTree raw]
  else if run.first.isDelimiter then
    some [.ofSeparator run.first.text]
  else
    ofComponent? leadingGlobstar run.first.isLast run.first.text

/-- The segments of a glob expression. -/
def segments? (leadingGlobstar : Bool) (expression : Text) : Option (List Segment) := do
  let tokens ← tokens? .separators expression
  let segments ← (runs foldsInto tokens).mapM (ofRun? leadingGlobstar expression)
  return segments.flatten

-----------------------------------------------------------------------------------------
-- Parts
-----------------------------------------------------------------------------------------

/-- The items of a component with wildcards, of which the first `bound` bytes are read. -/
def ofWildcard? (isDotless : Bool) (bound : Nat) (text : Text) : Option (List Item) := do
  let tokens ← tokensWithin? .wildcards bound text
  return (runs Item.foldsInto tokens).flatMap (Item.ofRun isDotless)

/-- The items of a segment. A dot that is dropped is kept out by a bound in bytes. -/
def items? (trailing : TrailingDot) (segment : Segment) : Option (List Item) :=
  let bound := Text.byteLength segment.raw.withoutDot
  match segment.kind with
  | .pathSeparator => some [.separator]
  | .globstar => some [.globstar]
  | .wildcard =>
      match segment.isLast, trailing with
      | true, .noExtension _ => ofWildcard? true bound segment.raw
      | _, _ => ofWildcard? false (Text.byteLength segment.raw) segment.raw
  | .plain =>
      match segment.isLast, trailing with
      | true, .noExtension true => do
          let (text, _) ← segment.raw.splitAtByte? bound
          return Item.ofLiteral text
      | _, _ => some (Item.ofLiteral segment.raw)

/-- The part that a segment becomes. -/
def ofSegment? (trailing : TrailingDot) (segment : Segment) : Option Part := do
  let items ← items? trailing segment
  return { raw := segment.raw, kind := segment.kind, items }

/-- The parts of a glob expression. -/
def parts? (options : Options) (expression : Text) : Option (List Part) := do
  let segments ← segments? options.leadingGlobstar expression
  segments.mapM (ofSegment? (.ofExpression options expression))

-----------------------------------------------------------------------------------------
-- Globs
-----------------------------------------------------------------------------------------

/-- The index behind the last separator in front of the first variant part: `bound` if there is none
among the parts, which stand at an index.
-/
def baseIndexFrom (index bound : Nat) : List Part → Nat
  | [] => bound
  | part :: parts =>
      match part.kind with
      | .pathSeparator => baseIndexFrom (index + 1) (index + 1) parts
      | .plain => baseIndexFrom (index + 1) bound parts
      | .wildcard | .globstar => bound

/-- Divides a list at an index, unless it is past the end. -/
def splitAt? {α : Type} (index : Nat) (items : List α) : Option (List α × List α) :=
  if index ≤ items.length then some (items.splitAt index) else none

/-- Compiles a glob expression. The base path is sliced from it, at the length of its raw texts. -/
def compile? (options : Options) (expression : Text) : Option Glob := do
  let parts ← parts? options expression
  let (base, stem) ← splitAt? (baseIndexFrom 0 0 parts) parts
  let bound := base.foldr (fun part length => Text.byteLength part.raw + length) 0
  let (basePath, _) ← expression.splitAtByte? bound
  let regex : Regex := {
    anchored := options.anchored
    lead := base.flatMap Part.terms
    stem := stem.flatMap Part.terms
  }
  return { basePath, pattern := regex.text, stemPattern := regex.stemOnly.text }

end Slicing

end PathGlob
