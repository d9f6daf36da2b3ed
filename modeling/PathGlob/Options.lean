/-! The flags that decide how a glob expression is read. Each of them is independent of the
others, and all of them are set unless something else is asked for.
-/

namespace PathGlob

/-- Names the flags, so that one can be chosen by a value. -/
inductive Flag where
  | anchored
  | leadingGlobstar
  | wildcardDot
  | literalDot
deriving DecidableEq

/-- A value for each flag. -/
structure Options where
  /-- Patterns match whole texts and not parts of them. -/
  anchored : Bool := true
  /-- Two or more asterisks at the start of a component are a globstar and a wildcard. -/
  leadingGlobstar : Bool := true
  /-- A single trailing dot keeps dots out of the wildcards of the last component. -/
  wildcardDot : Bool := true
  /-- A single trailing dot is also dropped from a last component without wildcards; this
  needs `wildcardDot`.
  -/
  literalDot : Bool := true
deriving DecidableEq

namespace Options

/-- The options with no flag set. -/
def empty : Options where
  anchored := false
  leadingGlobstar := false
  wildcardDot := false
  literalDot := false

/-- The value of a flag. -/
def get (options : Options) : Flag → Bool
  | .anchored => options.anchored
  | .leadingGlobstar => options.leadingGlobstar
  | .wildcardDot => options.wildcardDot
  | .literalDot => options.literalDot

/-- Gives a flag a value and leaves the others alone. -/
def set (options : Options) (flag : Flag) (value : Bool) : Options :=
  match flag with
  | .anchored => { options with anchored := value }
  | .leadingGlobstar => { options with leadingGlobstar := value }
  | .wildcardDot => { options with wildcardDot := value }
  | .literalDot => { options with literalDot := value }

/-- Setting a flag gives it the value and changes no other flag. -/
@[simp]
theorem get_set (options : Options) (flag other : Flag) (value : Bool)
    : (options.set flag value).get other = if flag = other then value else options.get other := by
  cases flag <;> cases other <;> rfl

/-- The options at first and after each of the settings. -/
def history (options : Options) : List (Flag × Bool) → List Options
  | [] => [options]
  | (flag, value) :: settings => options :: (options.set flag value).history settings

end Options

end PathGlob
