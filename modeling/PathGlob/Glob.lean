import PathGlob.Error
import PathGlob.Part

/-! Globs: expressions compiled into a base path, which is literal, and two patterns. One is
for whole paths and the other for paths relative to the base path.
-/

namespace PathGlob

/-- A compiled glob expression. -/
structure Glob where
  /-- The literal beginning of the expression, up to a separator. -/
  basePath : Text
  /-- The pattern of the base path and the stem, in its written form. -/
  pattern : Text
  /-- The pattern of the stem alone, in its written form. -/
  stemPattern : Text
deriving DecidableEq

/-- The parts up to the last separator that precedes the first variant part. -/
def baseParts (parts : List Part) : List Part :=
  let invariant := parts.takeWhile fun part => !part.kind.isVariant
  (invariant.reverse.dropWhile fun part => part.kind != .pathSeparator).reverse

/-- The parts after those of the base path. -/
def stemParts (parts : List Part) : List Part :=
  parts.drop (baseParts parts).length

/-- The regular expression of parts: those of the base path lead up to the others. -/
def Regex.ofParts (anchored : Bool) (parts : List Part) : Regex where
  anchored
  lead := (baseParts parts).flatMap Part.terms
  stem := (stemParts parts).flatMap Part.terms

namespace Glob

/-- Compiles a glob expression. -/
def compile (options : Options) (expression : Text) : Glob :=
  let parts := parts options expression
  let regex := Regex.ofParts options.anchored parts
  {
    basePath := (baseParts parts).flatMap Part.raw
    pattern := regex.text
    stemPattern := regex.stemOnly.text
  }

/-- Compiles a glob expression if there is one. -/
def compile? (options : Options) (expression : Option Text) : Except GlobError Glob :=
  (required expression).map (compile options)

/-- Builds a regular expression from its written form. -/
def build (pattern : Text) : Except GlobError Regex :=
  (Regex.build pattern).mapError .regex

/-- The regular expression for whole paths. -/
def regex (glob : Glob) : Except GlobError Regex :=
  build glob.pattern

/-- The regular expression for paths relative to the base path. -/
def stemRegex (glob : Glob) : Except GlobError Regex :=
  build glob.stemPattern

end Glob

/-- A glob is shown as its pattern. -/
instance : ToString Glob where
  toString glob := String.ofList glob.pattern

/-- The parts of a glob expression if there is one. -/
def parts? (options : Options) (expression : Option Text) : Except GlobError (List Part) :=
  (required expression).map (parts options)

end PathGlob
