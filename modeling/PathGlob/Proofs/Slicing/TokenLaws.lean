import Mathlib.Data.List.Chain
import PathGlob.Proofs.Cursors.CursorItems

/-! What makes a list of tokens the tokens of a text: how they join to it, where they stand, and
which of them are delimiters. A text has no other list of tokens with all of this.
-/

namespace PathGlob

/-- The tokens are those of a text that stands at an offset. They join to it and know their places;
the delimiters of the text are tokens of their own, and so is whatever lies between two of them.
Only a word at the end of the text is the last token.
-/
structure IsTokenized (delimiters : Delimiters) (offset : Nat) (text : Text) (tokens : List Token)
    : Prop where
  joined : tokens.flatMap Token.text = text
  nonempty : ∀ token ∈ tokens, token.text ≠ []
  placed
    : ∀ front token rear, tokens = front ++ token :: rear
      → token.start = offset + Text.byteLength (front.flatMap Token.text)
        ∧ token.stop = token.start + Text.byteLength token.text
  delimiters_alone
    : ∀ token ∈ tokens,
        token.isDelimiter = true ↔ ∃ c, delimiters.contains c = true ∧ token.text = [c]
  words : ∀ token ∈ tokens, token.isDelimiter = false → delimiters.IsWord token.text
  apart : tokens.IsChain fun left right => left.isDelimiter = true ∨ right.isDelimiter = true
  last
    : ∀ front token rear, tokens = front ++ token :: rear
      → (token.isLast = true ↔ rear = [] ∧ token.isDelimiter = false)

-----------------------------------------------------------------------------------------
-- The first token of a text
-----------------------------------------------------------------------------------------

namespace Delimiters

variable {delimiters : Delimiters} {c : Char} {word rest : Text}

/-- A text is divided behind its first token: the token is a delimiter, or it is a word in front of
nothing or of a delimiter.
-/
def IsFirst (delimiters : Delimiters) (c : Char) (word rest : Text) : Prop :=
  delimiters.contains c = true ∧ word = []
  ∨ delimiters.IsWord (c :: word) ∧ ∀ d ∈ rest.head?, delimiters.contains d = true

/-- The first token of a text that stands at an offset. -/
def firstToken (delimiters : Delimiters) (offset : Nat) (c : Char) (word rest : Text) : Token where
  text := c :: word
  start := offset
  isDelimiter := delimiters.contains c
  isLast := !delimiters.contains c && rest.isEmpty

theorem exists_isFirst (delimiters : Delimiters) (c : Char) (text : Text)
    : ∃ word rest, text = word ++ rest ∧ delimiters.IsFirst c word rest := by
  cases hc : delimiters.contains c with
  | true => exact ⟨[], text, rfl, Or.inl ⟨hc, rfl⟩⟩
  | false =>
      rcases isWord_or_closed delimiters text with hw | ⟨word, d, rest, rfl, hw, hd⟩
      · exact ⟨text, [], by simp, Or.inr ⟨isWord_cons_iff.mpr ⟨hc, hw⟩, by simp⟩⟩
      · exact ⟨word, d :: rest, rfl, Or.inr ⟨isWord_cons_iff.mpr ⟨hc, hw⟩, by simpa using hd⟩⟩

/-- Induction over the tokens of a text, from the last one to the first. -/
@[elab_as_elim]
theorem tokenInduction {motive : Text → Prop} (delimiters : Delimiters) (text : Text)
    (nil : motive [])
    (first : ∀ c word rest, delimiters.IsFirst c word rest → motive rest
      → motive (c :: (word ++ rest)))
    : motive text := by
  induction hl : text.length using Nat.strongRecOn generalizing text with
  | ind length ih =>
      cases text with
      | nil => exact nil
      | cons c text =>
          obtain ⟨word, rest, rfl, hf⟩ := exists_isFirst delimiters c text
          have shorter : rest.length < length := by
            rw [← hl, List.length_cons, List.length_append]
            omega
          exact first c word rest hf (ih rest.length shorter rest rfl)

namespace IsFirst

/-- The first token is the first run. -/
theorem runs_eq (hf : delimiters.IsFirst c word rest)
    : runs delimiters.joins (c :: (word ++ rest))
      = { first := c, rest := word } :: runs delimiters.joins rest := by
  rcases hf with ⟨hc, rfl⟩ | ⟨hw, hr⟩
  · exact runs_closed hc [] rest
  · exact runs_word_append hw hr

theorem tokensAt_eq (hf : delimiters.IsFirst c word rest) (offset : Nat)
    : tokensAt delimiters offset (c :: (word ++ rest))
      = delimiters.firstToken offset c word rest
        :: tokensAt delimiters (offset + Text.byteLength (c :: word)) rest :=
  tokensAt_cons hf.runs_eq offset

theorem eq_nil (hf : delimiters.IsFirst c word rest) (hc : delimiters.contains c = true)
    : word = [] := by
  rcases hf with ⟨-, hn⟩ | ⟨hw, -⟩
  · exact hn
  · exact absurd (hw c List.mem_cons_self) (by simp [hc])

theorem isWord (hf : delimiters.IsFirst c word rest) (hc : delimiters.contains c = false)
    : delimiters.IsWord (c :: word) ∧ ∀ d ∈ rest.head?, delimiters.contains d = true := by
  rcases hf with ⟨hd, -⟩ | h
  · exact absurd hd (by simp [hc])
  · exact h

end IsFirst

end Delimiters

-----------------------------------------------------------------------------------------
-- One token after another
-----------------------------------------------------------------------------------------

/-- Whatever holds of an item with what stands before and after it holds of the first one, and of
the others behind the first one.
-/
theorem forall_division_cons_iff {α : Type} {Holds : List α → α → List α → Prop} {first : α}
    {items : List α}
    : (∀ front item rear, first :: items = front ++ item :: rear → Holds front item rear)
      ↔ Holds [] first items
        ∧ ∀ front item rear, items = front ++ item :: rear → Holds (first :: front) item rear := by
  constructor
  · intro h
    exact ⟨h [] first items rfl, fun front item rear he => h (first :: front) item rear (he ▸ rfl)⟩
  · rintro ⟨hf, hr⟩ front item rear he
    cases front with
    | nil =>
        cases he
        exact hf
    | cons other front =>
        obtain ⟨same, he⟩ := List.cons.inj he
        exact same ▸ hr front item rear he

namespace IsTokenized

variable {delimiters : Delimiters} {offset : Nat} {text : Text} {tokens : List Token}

theorem nil_iff
    : IsTokenized delimiters offset text [] ↔ text = [] := by
  constructor
  · intro h
    exact h.joined.symm
  · rintro rfl
    exact {
      joined := rfl
      nonempty := by simp
      placed := by simp
      delimiters_alone := by simp
      words := by simp
      apart := .nil
      last := by simp
    }

/-- Only no tokens at all join to the empty text. -/
theorem joined_nil_iff (h : IsTokenized delimiters offset text tokens)
    : text = [] ↔ tokens = [] := by
  rw [← h.joined]
  cases tokens with
  | nil => simp
  | cons token tokens => simp [h.nonempty token]

/-- What follows the first token is tokenized from behind it. -/
theorem tail {token : Token} (h : IsTokenized delimiters offset text (token :: tokens))
    : IsTokenized delimiters (offset + Text.byteLength token.text)
        (tokens.flatMap Token.text) tokens where
  joined := rfl
  nonempty other hm := h.nonempty other (List.mem_cons_of_mem _ hm)
  placed := by
    intro front other rear he
    have place := (forall_division_cons_iff.mp h.placed).2 front other rear he
    rwa [List.flatMap_cons, Text.byteLength_append, ← Nat.add_assoc] at place
  delimiters_alone other hm := h.delimiters_alone other (List.mem_cons_of_mem _ hm)
  words other hm := h.words other (List.mem_cons_of_mem _ hm)
  apart := h.apart.tail
  last := (forall_division_cons_iff.mp h.last).2

/-- The first token is a delimiter, or a word that no other word follows. -/
theorem exists_isFirst {token : Token} (h : IsTokenized delimiters offset text (token :: tokens))
    : ∃ c word,
        token.text = c :: word
        ∧ token.isDelimiter = delimiters.contains c
        ∧ delimiters.IsFirst c word (tokens.flatMap Token.text) := by
  obtain ⟨c, word, ht⟩ := List.exists_cons_of_ne_nil (h.nonempty token List.mem_cons_self)
  refine ⟨c, word, ht, ?_⟩
  cases hd : token.isDelimiter with
  | true =>
      obtain ⟨d, hc, single⟩ := (h.delimiters_alone token List.mem_cons_self).mp hd
      cases ht.symm.trans single
      exact ⟨hc.symm, Or.inl ⟨hc, rfl⟩⟩
  | false =>
      have isWord : delimiters.IsWord (c :: word) := ht ▸ h.words token List.mem_cons_self hd
      refine ⟨(isWord c List.mem_cons_self).symm, Or.inr ⟨isWord, ?_⟩⟩
      intro d hf
      cases tokens with
      | nil => cases hf
      | cons next tokens =>
          have closing : next.isDelimiter = true :=
            ((List.isChain_cons.mp h.apart).1 next rfl).resolve_left (by simp [hd])
          obtain ⟨e, he, single⟩ := (h.delimiters_alone next (by simp)).mp closing
          rw [List.flatMap_cons, single] at hf
          cases hf
          exact he

/-- The first token stands at the offset, and is the last one only if it is a word before nothing. -/
theorem eq_firstToken {token : Token} {c : Char} {word : Text}
    (h : IsTokenized delimiters offset text (token :: tokens)) (ht : token.text = c :: word)
    (hd : token.isDelimiter = delimiters.contains c)
    : token = delimiters.firstToken offset c word (tokens.flatMap Token.text) := by
  have place : token.start = offset := (forall_division_cons_iff.mp h.placed).1.1
  have last : token.isLast = (!delimiters.contains c && (tokens.flatMap Token.text).isEmpty) := by
    rw [Bool.eq_iff_iff, (forall_division_cons_iff.mp h.last).1, hd, ← h.tail.joined_nil_iff]
    simp [and_comm]
  cases token
  simp only at ht hd place last
  simp only [Delimiters.firstToken, ht, hd, place, last]

/-- A text has its first token and those of what is left behind it. -/
theorem cons {c : Char} {word rest : Text} (hf : delimiters.IsFirst c word rest)
    (h : IsTokenized delimiters (offset + Text.byteLength (c :: word)) rest tokens)
    : IsTokenized delimiters offset (c :: (word ++ rest))
        (delimiters.firstToken offset c word rest :: tokens) where
  joined := by simp [Delimiters.firstToken, h.joined]
  nonempty := by simpa [Delimiters.firstToken] using h.nonempty
  placed := by
    refine forall_division_cons_iff.mpr ⟨⟨rfl, rfl⟩, ?_⟩
    intro front token rear he
    have place := h.placed front token rear he
    rwa [List.flatMap_cons, Text.byteLength_append, ← Nat.add_assoc]
  delimiters_alone := by
    refine List.forall_mem_cons.mpr ⟨⟨?_, ?_⟩, h.delimiters_alone⟩
    · intro hc
      exact ⟨c, hc, congrArg (c :: ·) (hf.eq_nil hc)⟩
    · rintro ⟨d, hd, single⟩
      cases single
      exact hd
  words := List.forall_mem_cons.mpr ⟨fun hc => (hf.isWord hc).1, h.words⟩
  apart := by
    refine List.isChain_cons.mpr ⟨?_, h.apart⟩
    intro next hm
    cases hc : delimiters.contains c with
    | true => exact Or.inl hc
    | false =>
        cases tokens with
        | nil => cases hm
        | cons other tokens =>
            cases hm
            obtain ⟨d, more, ht, hd, -⟩ := h.exists_isFirst
            refine Or.inr (hd.trans ((hf.isWord hc).2 d ?_))
            rw [← h.joined, List.flatMap_cons, ht]
            rfl
  last := by
    refine forall_division_cons_iff.mpr ⟨?_, h.last⟩
    rw [← h.joined_nil_iff]
    simp [Delimiters.firstToken, and_comm]

end IsTokenized

/-- A text has the tokens that are placed for it and no others: either way the first token is settled
by what the text begins with, by induction over the tokens.
-/
theorem isTokenized_iff {delimiters : Delimiters} {offset : Nat} {text : Text} {tokens : List Token}
    : IsTokenized delimiters offset text tokens ↔ tokens = tokensAt delimiters offset text := by
  constructor
  · intro h
    induction tokens generalizing offset text with
    | nil =>
        rw [IsTokenized.nil_iff.mp h]
        rfl
    | cons token tokens ih =>
        obtain ⟨c, word, ht, hd, hf⟩ := h.exists_isFirst
        have whole : text = c :: (word ++ tokens.flatMap Token.text) := by
          rw [← h.joined, List.flatMap_cons, ht, List.cons_append]
        rw [whole, hf.tokensAt_eq, ← h.eq_firstToken ht hd, ← ht, ← ih h.tail]
  · rintro rfl
    induction text using Delimiters.tokenInduction delimiters generalizing offset with
    | nil => exact IsTokenized.nil_iff.mpr rfl
    | first c word rest hf ih => exact hf.tokensAt_eq offset ▸ ih.cons hf

theorem isTokenized_tokens (delimiters : Delimiters) (text : Text)
    : IsTokenized delimiters 0 text (tokens delimiters text) :=
  isTokenized_iff.mpr (tokensAt_zero delimiters text).symm

end PathGlob
