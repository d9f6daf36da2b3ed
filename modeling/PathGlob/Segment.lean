import PathGlob.Token

/-! The segments of a glob expression: its text cut into raw pieces, each of one kind. Raw
pieces join to the expression, and a piece of leading asterisks may be cut in two.
-/

namespace PathGlob

/-- What a piece of a glob expression stands for. -/
inductive Kind where
  /-- One slash or backslash. -/
  | pathSeparator
  /-- A component with at least one wildcard. -/
  | wildcard
  /-- Asterisks that stand for any number of whole components. -/
  | globstar
  /-- A component without wildcards. -/
  | plain
deriving DecidableEq

namespace Kind

/-- The name of the kind in words. -/
def name : Kind → String
  | .pathSeparator => "path separator"
  | .wildcard => "wildcard"
  | .globstar => "globstar"
  | .plain => "plain"

/-- Whether a piece of this kind can match more than one text. -/
def isVariant : Kind → Bool
  | .wildcard | .globstar => true
  | .pathSeparator | .plain => false

/-- The kind of a whole component. -/
def ofComponent (text : Text) : Kind :=
  if text.any isWildcard then .wildcard else .plain

end Kind

/-- A raw piece of a glob expression and its kind. The last segment ends the expression,
and an expression that ends with a separator has none.
-/
structure Segment where
  raw : Text
  kind : Kind
  isLast : Bool
deriving DecidableEq

namespace Segment

/-- A segment of one separator. -/
def ofSeparator (raw : Text) : Segment where
  raw
  kind := .pathSeparator
  isLast := false

/-- A segment of asterisks for whole components. -/
def ofTree (raw : Text) : Segment where
  raw
  kind := .globstar
  isLast := false

/-- The segments of a component. If leading globstars are allowed, all but one of two or
more leading asterisks are a globstar, and the wildcard keeps the one that is left.
-/
def ofComponent (leadingGlobstar isLast : Bool) (text : Text) : Segment × List Segment :=
  let stars := (text.takeWhile (· == '*')).length
  if leadingGlobstar && 2 ≤ stars then
    (
      ofTree (text.take (stars - 1)),
      [{ raw := text.drop (stars - 1), kind := .wildcard, isLast }]
    )
  else
    ({ raw := text, kind := .ofComponent text, isLast }, [])

/-- Cutting a component loses none of its text. -/
theorem raw_ofComponent (leadingGlobstar isLast : Bool) (text : Text)
    : (ofComponent leadingGlobstar isLast text).1.raw
        ++ (ofComponent leadingGlobstar isLast text).2.flatMap raw = text := by
  simp only [ofComponent]
  split <;> simp [ofTree]

/-- The segments of a run of tokens, which is either one token or a component of asterisks
with the separator that follows it.
-/
def ofRun (leadingGlobstar : Bool) (run : Run Token) : List Segment :=
  if 1 < run.count then
    [ofTree (run.items.flatMap Token.text)]
  else if run.first.isDelimiter then
    [ofSeparator run.first.text]
  else
    let (segment, pending) := ofComponent leadingGlobstar run.first.isLast run.first.text
    segment :: pending

/-- The segments of a run hold the text of its tokens, by the cases of its making. -/
theorem flatMap_raw_ofRun (leadingGlobstar : Bool) (run : Run Token)
    : (ofRun leadingGlobstar run).flatMap raw = run.items.flatMap Token.text := by
  obtain ⟨token, rest⟩ := run
  cases rest with
  | cons other rest => simp [ofRun, Run.count, ofTree]
  | nil =>
      cases hd : token.isDelimiter with
      | true => simp [ofRun, hd, Run.count, Run.items, ofSeparator]
      | false => simp [ofRun, hd, Run.count, Run.items, raw_ofComponent]

end Segment

/-- A component of two or more asterisks is folded with the separator after it. -/
def foldsInto (left right : Token) : Bool :=
  left.isTree && right.isDelimiter

/-- The segments of a glob expression in order. -/
def segments (leadingGlobstar : Bool) (expression : Text) : List Segment :=
  (runs foldsInto (tokens .separators expression)).flatMap (Segment.ofRun leadingGlobstar)

/-- Raw pieces join to the expression, since runs and tokens do. -/
@[simp]
theorem flatMap_raw_segments (leadingGlobstar : Bool) (expression : Text)
    : (segments leadingGlobstar expression).flatMap Segment.raw = expression := by
  rw [segments, List.flatMap_assoc]
  simp only [Segment.flatMap_raw_ofRun]
  rw [← List.flatMap_assoc, flatMap_items_runs, flatMap_text_tokens]

end PathGlob
