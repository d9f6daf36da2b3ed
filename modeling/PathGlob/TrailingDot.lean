import PathGlob.Options
import PathGlob.Text

/-! The rule for a dot that ends a glob expression. A single dot after a name can ask for
names without an extension, while the components of dots alone are left as they are.
-/

namespace PathGlob

/-- What a dot at the end of an expression means. -/
inductive TrailingDot where
  /-- The dot, if there is one, is a character like any other. -/
  | literal
  /-- Wildcards of the last component exclude dots and the dot is no part of the component;
  for a component without wildcards the latter holds only if the flag is set.
  -/
  | noExtension (isDroppedFromLiteral : Bool)
deriving DecidableEq

namespace TrailingDot

/-- Whether a text ends with a dot that no dot and no separator precedes. -/
def endsName (text : Text) : Bool :=
  match text.reverse with
  | '.' :: previous :: _ => previous != '.' && !isSeparator previous
  | _ => false

/-- The rule that the options select for an expression. -/
def ofExpression (options : Options) (expression : Text) : TrailingDot :=
  if options.wildcardDot && endsName expression then
    .noExtension options.literalDot
  else
    .literal

end TrailingDot

/-- The text less a dot that ends it. -/
def Text.withoutDot (text : Text) : Text :=
  if text.getLast? = some '.' then text.dropLast else text

end PathGlob
