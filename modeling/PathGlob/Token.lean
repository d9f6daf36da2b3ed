import PathGlob.Run
import PathGlob.Text

/-! A text cut into tokens at a set of delimiters: each delimiter is a token of its own, and
so is each longest run of other characters. Tokens join to the text and know their offsets.
-/

namespace PathGlob

/-- The two sets of characters at which a glob expression is cut. -/
inductive Delimiters where
  | separators
  | wildcards
deriving DecidableEq

/-- Whether the character belongs to the set. -/
def Delimiters.contains : Delimiters → Char → Bool
  | .separators, c => isSeparator c
  | .wildcards, c => isWildcard c

/-- Whether the text spells a run of whole components: asterisks only, two or more. -/
def isTreeText (text : Text) : Bool :=
  2 ≤ text.length && text.all (· == '*')

/-- A piece of a text with its place there, in bytes. The last token is the final one, and
only if it is no delimiter.
-/
structure Token where
  text : Text
  start : Nat
  isDelimiter : Bool
  isLast : Bool
deriving DecidableEq

namespace Token

/-- The offset one past the end of the token. -/
def stop (token : Token) : Nat :=
  token.start + Text.byteLength token.text

/-- Whether the token stands for whole components once a separator follows it. -/
def isTree (token : Token) : Bool :=
  !token.isDelimiter && isTreeText token.text

end Token

/-- Two characters share a token when neither of them is a delimiter. -/
def Delimiters.joins (delimiters : Delimiters) (left right : Char) : Bool :=
  !delimiters.contains left && !delimiters.contains right

/-- Puts a run of characters in front of the tokens already placed, so that it stops where
they start.
-/
def placeToken (delimiters : Delimiters) (run : Run Char) (placed : Nat × List Token)
    : Nat × List Token :=
  let start := placed.1 - Text.byteLength run.items
  let isDelimiter := delimiters.contains run.first
  let token := {
    text := run.items
    start
    isDelimiter
    isLast := !isDelimiter && placed.2.isEmpty
  }
  (start, token :: placed.2)

/-- The tokens of a text in order. They are placed from its end, where the last one is
known.
-/
def tokens (delimiters : Delimiters) (text : Text) : List Token :=
  ((runs delimiters.joins text).foldr (placeToken delimiters) (Text.byteLength text, [])).2

/-- Placed tokens hold the characters of their runs, by induction on the runs. -/
theorem flatMap_text_placeToken (delimiters : Delimiters) (runs : List (Run Char)) (stop : Nat)
    : (runs.foldr (placeToken delimiters) (stop, [])).2.flatMap Token.text =
        runs.flatMap Run.items := by
  induction runs with
  | nil => rfl
  | cons run runs ih => simp [placeToken, ih]

/-- Tokens join to the text that they were made from, since runs do. -/
@[simp]
theorem flatMap_text_tokens (delimiters : Delimiters) (text : Text)
    : (tokens delimiters text).flatMap Token.text = text :=
  (flatMap_text_placeToken ..).trans (flatMap_items_runs ..)

/-- The tokens of the first `bound` bytes of a text, if the text can be cut there. -/
def tokensWithin? (delimiters : Delimiters) (bound : Nat) (text : Text)
    : Option (List Token) :=
  (Text.splitAtByte? bound text).map fun cut => tokens delimiters cut.1

end PathGlob
