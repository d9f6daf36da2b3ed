import PathGlob.Text

/-! The regular expressions that globs compile to, and their written form. Two of them with
one written form are equal, so a pattern can be kept as text without losing its meaning.
-/

namespace PathGlob

/-- The characters that one place of a pattern accepts. -/
inductive CharSet where
  /-- One character, written by itself. -/
  | only (c : Char)
  /-- The listed characters, written in brackets. -/
  | listed (members : Text)
  /-- Every character that is not listed, line ends included. -/
  | unlisted (members : Text)
deriving DecidableEq

namespace CharSet

/-- Whether the set has the character. -/
def contains : CharSet → Char → Bool
  | only c, d => c == d
  | listed members, d => List.contains members d
  | unlisted members, d => !List.contains members d

/-- The characters that mean something else than themselves in a pattern. -/
def metas : List Char :=
  ['\\', '.', '+', '*', '?', '(', ')', '|', '[', ']', '\x7b', '\x7d', '^', '$', '#', '&', '-', '~']

/-- The characters that mean something else than themselves between brackets. -/
def bracketMetas : List Char :=
  ['\\', '[', ']', '^', '-', '&', '~']

/-- A character written so that it means itself: a backslash precedes the given ones. -/
def escape (special : List Char) (c : Char) : Text :=
  if special.contains c then ['\\', c] else [c]

/-- The written form of the set. -/
def text : CharSet → Text
  | only c => escape metas c
  | listed members => '[' :: members.flatMap (escape bracketMetas) ++ [']']
  | unlisted members => '[' :: '^' :: members.flatMap (escape bracketMetas) ++ [']']

end CharSet

/-- A step of a pattern. -/
inductive Term where
  /-- One character of the set. -/
  | one (set : CharSet)
  /-- Characters of the set, as many as possible. -/
  | many (set : CharSet)
  /-- Groups of characters of the inner set, each closed by one of the other set: as many
  groups as possible, and as many characters in each.
  -/
  | loop (inner closing : CharSet)
deriving DecidableEq

/-- The written form of the term. -/
def Term.text : Term → Text
  | one set => set.text
  | many set => set.text ++ ['*']
  | loop inner closing =>
      ['(', '?', ':'] ++ inner.text ++ ['*'] ++ closing.text ++ [')', '*']

/-- A regular expression: terms that lead up to the group named `stem`, and the terms in
that group. If it is anchored it matches whole texts only, and otherwise parts of them.
-/
structure Regex where
  anchored : Bool
  lead : List Term
  stem : List Term
deriving DecidableEq

namespace Regex

/-- What opens the group. -/
def stemOpening : Text :=
  ['(', '?', '<', 's', 't', 'e', 'm', '>']

/-- What lies between the anchors, in its written form and before an ending. -/
def body (regex : Regex) (ending : Text) : Text :=
  regex.lead.flatMap Term.text ++ (stemOpening ++ (regex.stem.flatMap Term.text ++ ')' :: ending))

/-- The written form of the regular expression. -/
def text (regex : Regex) : Text :=
  if regex.anchored then '^' :: regex.body ['$'] else regex.body []

/-- The regular expression of the group alone. -/
def stemOnly (regex : Regex) : Regex :=
  { regex with lead := [] }

end Regex

end PathGlob
