import PathGlob.Glob
import PathGlob.Regex.Search

/-! Matchers of paths. Paths are taken as they are given, so neither dots nor repeated
separators are simplified in them.
-/

namespace PathGlob

/-- Matches paths by a regular expression. -/
structure Matcher where
  regex : Regex
deriving DecidableEq

namespace Matcher

/-- The match in a path and that of the group within it. -/
def find? (matcher : Matcher) (path : Text) : Option Regex.Match :=
  matcher.regex.find? path

/-- Whether there is a match in the path. -/
def isMatch (matcher : Matcher) (path : Text) : Bool :=
  (matcher.find? path).isSome

/-- The text of the path that the stem of the glob matches. -/
def stem? (matcher : Matcher) (path : Text) : Option Text := do
  let found ← matcher.find? path
  path.slice? found.stem

end Matcher

namespace Glob

/-- The matcher of whole paths. -/
def matcher (glob : Glob) : Except GlobError Matcher :=
  glob.regex.map fun regex => { regex }

/-- The matcher of paths relative to the base path. -/
def stemMatcher (glob : Glob) : Except GlobError Matcher :=
  glob.stemRegex.map fun regex => { regex }

end Glob

end PathGlob
