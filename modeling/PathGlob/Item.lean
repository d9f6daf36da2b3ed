import PathGlob.Regex.Basic
import PathGlob.Token

/-! The items that the segments of a glob expression are made of: what each of them accepts,
how they are read from a segment, and the term of a regular expression for each of them.
-/

namespace PathGlob

/-- What one step of a glob expression accepts. A dotless wildcard excludes dots too. -/
inductive Item where
  /-- The character itself. -/
  | literal (c : Char)
  /-- Either separator. -/
  | separator
  /-- One character that is not a separator. -/
  | one (isDotless : Bool)
  /-- Characters that are not separators, as many as possible. -/
  | many (isDotless : Bool)
  /-- Whole components with their separators, as many as possible. -/
  | globstar
deriving DecidableEq

namespace Item

/-- The set of both separators. -/
def separatorSet : CharSet :=
  .listed ['/', '\\']

/-- The set of the characters that a wildcard accepts. -/
def wildcardSet (isDotless : Bool) : CharSet :=
  .unlisted (if isDotless then ['/', '\\', '.'] else ['/', '\\'])

/-- The term of a regular expression that accepts what the item does. -/
def term : Item → Term
  | literal c => .one (.only c)
  | separator => .one separatorSet
  | one isDotless => .one (wildcardSet isDotless)
  | many isDotless => .many (wildcardSet isDotless)
  | globstar => .loop (wildcardSet false) separatorSet

/-- The items of a text without wildcards. -/
def ofLiteral (text : Text) : List Item :=
  text.map literal

/-- Adjacent asterisks accept no more than one of them. -/
def foldsInto (left right : Token) : Bool :=
  left.text == ['*'] && right.text == ['*']

/-- The items of a run of tokens, which is either one token or a run of asterisks. -/
def ofRun (isDotless : Bool) (run : Run Token) : List Item :=
  if run.first.isDelimiter then
    [if run.first.text == ['*'] then many isDotless else one isDotless]
  else
    ofLiteral run.first.text

/-- The items of a component with wildcards. -/
def ofWildcard (isDotless : Bool) (text : Text) : List Item :=
  (runs foldsInto (tokens .wildcards text)).flatMap (ofRun isDotless)

end Item

end PathGlob
