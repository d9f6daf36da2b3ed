import PathGlob.Item
import PathGlob.Proofs.Segmentation.TokenSequence

/-! The items of a text with wildcards, read in one pass over its characters. Adjacent asterisks
give one item, and every other character gives one of its own.
-/

namespace PathGlob.Item

/-- The items of a text with wildcards, one character after another. An asterisk in front of
another one gives no item.
-/
def scan (isDotless : Bool) : Text → List Item
  | [] => []
  | c :: rest =>
      if c = '*' then
        if rest.head? = some '*' then
          scan isDotless rest
        else
          many isDotless :: scan isDotless rest
      else if c = '?' then
        one isDotless :: scan isDotless rest
      else
        literal c :: scan isDotless rest

theorem scan_word_append (isDotless : Bool) {word : Text} (hw : Delimiters.wildcards.IsWord word)
    (rest : Text)
    : scan isDotless (word ++ rest) = ofLiteral word ++ scan isDotless rest := by
  induction word with
  | nil => rfl
  | cons c word ih =>
      obtain ⟨hc, hw⟩ := Delimiters.isWord_cons_iff.mp hw
      simp only [Delimiters.contains, isWildcard, Bool.or_eq_false_iff, beq_eq_false_iff_ne] at hc
      simp [scan, hc, ih hw, ofLiteral]

/-- Asterisks in front of another one give no items of their own, by induction on what is in front
of them and on their count.
-/
theorem scan_stars (isDotless : Bool) (left : Text) (count : Nat) (rest : Text)
    : scan isDotless (left ++ (List.replicate count '*' ++ '*' :: rest))
      = scan isDotless (left ++ '*' :: rest) := by
  have first (count : Nat) : (List.replicate count '*' ++ '*' :: rest).head? = some '*' := by
    cases count <;> rfl
  induction left with
  | nil =>
      induction count with
      | zero => rfl
      | succ count ih =>
          rw [List.nil_append, List.replicate_succ, List.cons_append, scan, if_pos rfl,
            if_pos (first count)]
          exact ih
  | cons c left ih =>
      have next : (left ++ (List.replicate count '*' ++ '*' :: rest)).head?
          = (left ++ '*' :: rest).head? := by
        cases left with
        | nil => exact first count
        | cons d left => rfl
      simp only [List.cons_append, scan, next, ih]

/-- Items do not depend on the places of the tokens that they are made of. -/
theorem ofWildcard_eq_unplaced (isDotless : Bool) (text : Text)
    : ofWildcard isDotless text
      = (runs foldsInto
            (unplacedTokens .wildcards (runs Delimiters.wildcards.joins text))).flatMap
          (ofRun isDotless) :=
  flatMap_runs_tokens (fun _ _ => rfl) (fun _ => rfl) _ _

section
variable {isDotless : Bool}

theorem items_of_not_adjacent {token : Token} {tokens : List Token}
    (h : ∀ next ∈ tokens.head?, foldsInto token next = false)
    : (runs foldsInto (token :: tokens)).flatMap (ofRun isDotless)
      = ofRun isDotless { first := token, rest := [] }
        ++ (runs foldsInto tokens).flatMap (ofRun isDotless) := by
  rw [runs_cons_of_not_adjacent h, List.flatMap_cons]

theorem items_of_stars {first second : Token} {tokens : List Token}
    (hf : first.isDelimiter = true ∧ first.text = ['*'])
    (hs : second.isDelimiter = true ∧ second.text = ['*'])
    : (runs foldsInto (first :: second :: tokens)).flatMap (ofRun isDotless)
      = (runs foldsInto (second :: tokens)).flatMap (ofRun isDotless) := by
  obtain ⟨rest, later, hr⟩ := exists_runs_cons foldsInto second tokens
  change (Run.cons foldsInto first (runs foldsInto (second :: tokens))).flatMap _ = _
  simp [hr, Run.cons, foldsInto, ofRun, hf, hs]

/-- The first token of a text begins with its first character, and is that character alone if
it is a delimiter.
-/
theorem exists_unplacedTokens_cons (c : Char) (rest : Text)
    : ∃ token later,
        unplacedTokens .wildcards (runs Delimiters.wildcards.joins (c :: rest)) = token :: later
        ∧ token.isDelimiter = isWildcard c
        ∧ token.text.head? = some c
        ∧ (isWildcard c = true → token.text = [c]) := by
  obtain ⟨others, later, hr⟩ := exists_runs_cons Delimiters.wildcards.joins c rest
  refine ⟨_, _, by rw [hr, unplacedTokens], rfl, rfl, fun hc => ?_⟩
  have alone := @Delimiters.runs_closed .wildcards c hc [] rest
  rw [List.nil_append, hr] at alone
  obtain rfl := (Run.mk.inj (List.cons.inj alone).1).2
  rfl

/-- The items of a word come before those of the tokens after it. -/
theorem items_of_word {word : Text} (hw : Delimiters.wildcards.IsWord word)
    (later : List (Run Char))
    : (runs foldsInto
          (unplacedTokens .wildcards (runs Delimiters.wildcards.joins word ++ later))).flatMap
        (ofRun isDotless)
      = ofLiteral word
        ++ (runs foldsInto (unplacedTokens .wildcards later)).flatMap (ofRun isDotless) := by
  cases word with
  | nil => rfl
  | cons c word =>
      have hc : Delimiters.wildcards.contains c = false := hw c (by simp)
      have hs : c ≠ '*' := by
        intro he
        simp [he, Delimiters.contains, isWildcard] at hc
      rw [Delimiters.runs_word hw, List.cons_append, List.nil_append, unplacedTokens,
        items_of_not_adjacent]
      · simp [ofRun, hc, Run.items]
      · intro next _
        simp [foldsInto, Run.items, hs]

/-- An asterisk adds an item unless another one follows it. -/
theorem items_of_star {token : Token} (ht : token.isDelimiter = true ∧ token.text = ['*'])
    (rest : Text)
    : let later := unplacedTokens .wildcards (runs Delimiters.wildcards.joins rest)
      (runs foldsInto (token :: later)).flatMap (ofRun isDotless)
      = (if rest.head? = some '*' then [] else [many isDotless])
        ++ (runs foldsInto later).flatMap (ofRun isDotless) := by
  dsimp only
  cases rest with
  | nil => simp [unplacedTokens, runs, Run.cons, ofRun, ht]
  | cons c rest =>
      obtain ⟨next, later, hl, hk, hh, ho⟩ := exists_unplacedTokens_cons c rest
      rw [hl]
      by_cases hc : c = '*'
      · subst hc
        rw [items_of_stars ht ⟨hk, ho rfl⟩]
        simp
      · have other : next.text ≠ ['*'] := by
          intro he
          rw [he] at hh
          exact hc (Option.some.inj hh).symm
        rw [items_of_not_adjacent]
        · simp [ofRun, ht, hc]
        · intro first hf
          cases hf
          simp [foldsInto, other]

/-- One pass over the characters reads what the runs of tokens become, by induction over the
words of the text.
-/
theorem ofWildcard_eq_scan (text : Text) : ofWildcard isDotless text = scan isDotless text := by
  rw [ofWildcard_eq_unplaced]
  induction text using Delimiters.wordInduction Delimiters.wildcards with
  | last word hw =>
      have items := @items_of_word isDotless word hw []
      have scanned := scan_word_append isDotless hw []
      simp_all [scan, unplacedTokens, runs]
  | closed word delimiter rest hw hd ih =>
      rw [Delimiters.runs_closed hd, items_of_word hw, scan_word_append isDotless hw]
      congr 1
      rw [unplacedTokens, scan]
      by_cases hs : delimiter = '*'
      · subst hs
        rw [items_of_star ⟨hd, rfl⟩, ih, if_pos rfl]
        split <;> rfl
      · have hq : delimiter = '?' := by
          simpa [Delimiters.contains, isWildcard, hs] using hd
        rw [items_of_not_adjacent, ih]
        · subst hq
          rfl
        · intro next _
          simp [foldsInto, Run.items, hs]

end

end PathGlob.Item
