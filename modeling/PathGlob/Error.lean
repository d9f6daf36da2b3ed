import PathGlob.Regex.Size

/-! What can go wrong with a glob: the expression may not be there, and its regular
expression may not be buildable. No expression is refused for what it says.
-/

namespace PathGlob

/-- Why there is no glob or no regular expression for it. -/
inductive GlobError where
  /-- No glob expression was given. -/
  | absent
  /-- The regular expression could not be built. -/
  | regex (cause : Regex.BuildError)
deriving DecidableEq

namespace GlobError

/-- What is wrong, in words. -/
def message : GlobError → String
  | absent => "glob expression is absent"
  | regex cause => "failed to build regular expression: " ++ cause.message

/-- The short name under which the error is reported. -/
def code : GlobError → String
  | absent => "absent"
  | regex _ => "regex"

end GlobError

/-- An expression that has to be given. -/
def required (expression : Option Text) : Except GlobError Text :=
  match expression with
  | some expression => .ok expression
  | none => .error .absent

end PathGlob
