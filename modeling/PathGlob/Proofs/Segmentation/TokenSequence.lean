import PathGlob.Proofs.Segmentation.RunConcatenation
import PathGlob.Token

/-! The tokens of a text one word after another. A word is a text without delimiters, and the
tokens of a word and of the delimiter after it do not depend on what follows.
-/

namespace PathGlob

namespace Delimiters

/-- The text holds no delimiter. -/
def IsWord (delimiters : Delimiters) (text : Text) : Prop :=
  ∀ c ∈ text, delimiters.contains c = false

variable {delimiters : Delimiters}

theorem isWord_cons_iff {c : Char} {text : Text}
    : delimiters.IsWord (c :: text)
      ↔ delimiters.contains c = false ∧ delimiters.IsWord text := by
  simp [IsWord]

/-- A text is a word, or a word that a delimiter closes in front of another text. -/
theorem isWord_or_closed (delimiters : Delimiters) (text : Text)
    : delimiters.IsWord text
      ∨ ∃ word delimiter rest,
          text = word ++ delimiter :: rest
          ∧ delimiters.IsWord word
          ∧ delimiters.contains delimiter = true := by
  induction text with
  | nil => exact Or.inl (by simp [IsWord])
  | cons c text ih =>
      cases hc : delimiters.contains c with
      | true => exact Or.inr ⟨[], c, text, rfl, by simp [IsWord], hc⟩
      | false =>
          rcases ih with hw | ⟨word, delimiter, rest, rfl, hw, hd⟩
          · exact Or.inl (isWord_cons_iff.mpr ⟨hc, hw⟩)
          · exact Or.inr ⟨c :: word, delimiter, rest, rfl, isWord_cons_iff.mpr ⟨hc, hw⟩, hd⟩

/-- Induction over the words of a text, from the last one to the first. -/
@[elab_as_elim]
theorem wordInduction {motive : Text → Prop} (delimiters : Delimiters) (text : Text)
    (last : ∀ word, delimiters.IsWord word → motive word)
    (closed : ∀ word delimiter rest, delimiters.IsWord word
      → delimiters.contains delimiter = true → motive rest → motive (word ++ delimiter :: rest))
    : motive text := by
  induction hl : text.length using Nat.strongRecOn generalizing text with
  | ind length ih =>
      rcases isWord_or_closed delimiters text with hw | ⟨word, delimiter, rest, rfl, hw, hd⟩
      · exact last text hw
      · have shorter : rest.length < length := by
          rw [← hl]
          simp only [List.length_append, List.length_cons]
          omega
        exact closed word delimiter rest hw hd (ih rest.length shorter rest rfl)

-----------------------------------------------------------------------------------------
-- Words and delimiters as runs of characters
-----------------------------------------------------------------------------------------

theorem runs_word {c : Char} {word : Text} (hw : delimiters.IsWord (c :: word))
    : runs delimiters.joins (c :: word) = [{ first := c, rest := word }] := by
  refine runs_of_adjacent ?_
  intro left hl right hr
  simp [joins, hw left hl, hw right (List.mem_cons_of_mem _ hr)]

/-- A delimiter is a run of its own, and stays apart from the word in front of it. -/
theorem runs_closed {delimiter : Char} (hd : delimiters.contains delimiter = true)
    (word rest : Text)
    : runs delimiters.joins (word ++ delimiter :: rest)
      = runs delimiters.joins word
        ++ { first := delimiter, rest := [] } :: runs delimiters.joins rest := by
  rw [runs_append, runs_cons_of_not_adjacent]
  · intro next _
    simp [joins, hd]
  · intro last _ first hf
    cases hf
    simp [joins, hd]

end Delimiters

-----------------------------------------------------------------------------------------
-- Tokens without their places
-----------------------------------------------------------------------------------------

/-- The token without its place. -/
def Token.unplaced (token : Token) : Token :=
  { token with start := 0 }

/-- The tokens that runs of characters become, without their places. -/
def unplacedTokens (delimiters : Delimiters) : List (Run Char) → List Token
  | [] => []
  | run :: runs =>
      let isDelimiter := delimiters.contains run.first
      let token := {
        text := run.items
        start := 0
        isDelimiter
        isLast := !isDelimiter && runs.isEmpty
      }
      token :: unplacedTokens delimiters runs

/-- Placed tokens are those of their runs, by induction on the runs. -/
theorem map_unplaced_tokens (delimiters : Delimiters) (text : Text)
    : (tokens delimiters text).map Token.unplaced
      = unplacedTokens delimiters (runs delimiters.joins text) := by
  have placed (runs : List (Run Char)) (stop : Nat)
      : (runs.foldr (placeToken delimiters) (stop, [])).2.map Token.unplaced
        = unplacedTokens delimiters runs := by
    induction runs with
    | nil => rfl
    | cons run runs ih =>
        have he : (runs.foldr (placeToken delimiters) (stop, [])).2.isEmpty = runs.isEmpty := by
          cases runs <;> rfl
        simp [placeToken, unplacedTokens, Token.unplaced, he, ← ih]
  exact placed ..

/-- What runs of tokens become can be read from the tokens without their places. -/
theorem flatMap_runs_tokens {κ : Type} {folds : Token → Token → Bool} {make : Run Token → List κ}
    (hf : ∀ left right : Token, folds left.unplaced right.unplaced = folds left right)
    (hm : ∀ run : Run Token,
      make { first := run.first.unplaced, rest := run.rest.map Token.unplaced } = make run)
    (delimiters : Delimiters) (text : Text)
    : (runs folds (tokens delimiters text)).flatMap make
      = (runs folds (unplacedTokens delimiters (runs delimiters.joins text))).flatMap make := by
  rw [← map_unplaced_tokens, runs_map Token.unplaced hf, List.flatMap_map]
  congr
  funext run
  exact (hm run).symm

end PathGlob
