import PathGlob.Cursor
import PathGlob.Proofs.Cursors.SourceItems
import PathGlob.Proofs.Segmentation.TokenSequence

/-! What cursors give: the tokens, segments and parts that the whole expression is cut into. A token
is found at the offset where it stands among all tokens, though only what is left of the text is
read.
-/

namespace PathGlob

open Source

-----------------------------------------------------------------------------------------
-- Tokens
-----------------------------------------------------------------------------------------

/-- The tokens of a text that stands at an offset. -/
def tokensAt (delimiters : Delimiters) (offset : Nat) (text : Text) : List Token :=
  ((runs delimiters.joins text).foldr (placeToken delimiters)
    (offset + Text.byteLength text, [])).2

theorem tokensAt_zero (delimiters : Delimiters) (text : Text)
    : tokensAt delimiters 0 text = tokens delimiters text := by
  rw [tokensAt, Nat.zero_add, tokens]

/-- Placed runs start where their characters do, counted from the end. -/
theorem start_placeToken (delimiters : Delimiters) (runs : List (Run Char)) (stop : Nat)
    : (runs.foldr (placeToken delimiters) (stop, [])).1
      = stop - Text.byteLength (runs.flatMap Run.items) := by
  induction runs with
  | nil => rfl
  | cons run runs ih =>
      rw [List.foldr_cons, placeToken, ih, List.flatMap_cons, Text.byteLength_append]
      dsimp only
      omega

/-- The first run of a text is its first token, and what follows stands behind it. -/
theorem tokensAt_cons {delimiters : Delimiters} {text rest : Text} {run : Run Char}
    (h : runs delimiters.joins text = run :: runs delimiters.joins rest) (offset : Nat)
    : tokensAt delimiters offset text
      = {
          text := run.items
          start := offset
          isDelimiter := delimiters.contains run.first
          isLast := !delimiters.contains run.first && rest.isEmpty
        } :: tokensAt delimiters (offset + Text.byteLength run.items) rest := by
  have joined : text = run.items ++ rest := by
    rw [← flatMap_items_runs delimiters.joins text, h, List.flatMap_cons, flatMap_items_runs]
  have stop : offset + Text.byteLength text
      = offset + Text.byteLength run.items + Text.byteLength rest := by
    rw [joined, Text.byteLength_append, Nat.add_assoc]
  have start : offset + Text.byteLength run.items + Text.byteLength rest - Text.byteLength rest
        - Text.byteLength run.items
      = offset := by
    omega
  have empty (stop : Nat)
      : ((runs delimiters.joins rest).foldr (placeToken delimiters) (stop, [])).2.isEmpty
        = rest.isEmpty := by
    cases rest with
    | nil => rfl
    | cons c rest =>
        obtain ⟨others, later, hr⟩ := exists_runs_cons delimiters.joins c rest
        rw [hr]
        rfl
  rw [tokensAt, tokensAt, h, stop, List.foldr_cons, placeToken, start_placeToken,
    flatMap_items_runs, start, empty]

/-- A word in front of nothing or of a delimiter is a run. -/
theorem runs_word_append {delimiters : Delimiters} {c : Char} {word tail : Text}
    (hw : delimiters.IsWord (c :: word)) (ht : ∀ d ∈ tail.head?, delimiters.contains d = true)
    : runs delimiters.joins (c :: word ++ tail)
      = { first := c, rest := word } :: runs delimiters.joins tail := by
  rw [runs_append, Delimiters.runs_word hw, List.singleton_append]
  intro last _ first hf
  simp [Delimiters.joins, ht first hf]

/-- The token that is read is the first run of what is left of the text. -/
theorem TokenCursor.exists_next_eq (delimiters : Delimiters) (offset : Nat) (c : Char) (rest : Text)
    : ∃ word left,
        TokenCursor.next { delimiters, offset, rest := c :: rest }
          = (
              some
                {
                  text := c :: word
                  start := offset
                  isDelimiter := delimiters.contains c
                  isLast := !delimiters.contains c && left.isEmpty
                },
              { delimiters, offset := offset + Text.byteLength (c :: word), rest := left }
            )
        ∧ runs delimiters.joins (c :: rest)
          = { first := c, rest := word } :: runs delimiters.joins left := by
  cases hc : delimiters.contains c with
  | true =>
      refine ⟨[], rest, ?_, Delimiters.runs_closed hc [] rest⟩
      simp [TokenCursor.next, Token.stop, hc]
  | false =>
      let isInWord (d : Char) : Bool := !delimiters.contains d
      refine ⟨rest.takeWhile isInWord, rest.dropWhile isInWord, ?_, ?_⟩
      · simp [TokenCursor.next, Token.stop, hc, isInWord]
      · have word : delimiters.IsWord (c :: rest.takeWhile isInWord) := by
          refine Delimiters.isWord_cons_iff.mpr ⟨hc, fun d hd => ?_⟩
          simpa [isInWord] using List.all_eq_true.mp List.all_takeWhile d hd
        have closed : ∀ d ∈ (rest.dropWhile isInWord).head?, delimiters.contains d = true := by
          intro d hd
          have stops := List.head?_dropWhile_not isInWord rest
          rw [hd] at stops
          simpa [isInWord] using stops
        have cut := runs_word_append word closed
        rwa [List.cons_append, List.takeWhile_append_dropWhile] at cut

/-- Reading tokens gives those of the text. -/
theorem gives_tokens (delimiters : Delimiters) (text : Text)
    : Gives (TokenCursor.start delimiters text) (tokens delimiters text) := by
  refine gives_of_step
    (fun cursor tokens => tokens = tokensAt cursor.delimiters cursor.offset cursor.rest)
    ?_ (tokensAt_zero delimiters text).symm
  intro cursor tokens hold
  obtain ⟨delimiters, offset, text⟩ := cursor
  subst hold
  cases text with
  | nil => exact ⟨_, rfl, rfl⟩
  | cons c rest =>
      obtain ⟨word, left, hn, hr⟩ := TokenCursor.exists_next_eq delimiters offset c rest
      dsimp only
      rw [tokensAt_cons hr]
      exact ⟨_, hn, rfl⟩

-----------------------------------------------------------------------------------------
-- Segments and parts
-----------------------------------------------------------------------------------------

theorem exists_ofRun_eq_cons (leadingGlobstar : Bool) (run : Run Token)
    : ∃ segment pending, Segment.ofRun leadingGlobstar run = segment :: pending := by
  unfold Segment.ofRun
  split
  next => exact ⟨_, _, rfl⟩
  next => split <;> exact ⟨_, _, rfl⟩

/-- What is pending comes before the segments of the runs that are left. -/
theorem SegmentCursor.gives_segments {cursor : SegmentCursor} {runs : List (Run Token)}
    (h : Gives cursor.runs runs)
    : Gives cursor
        (cursor.pending ++ runs.flatMap (Segment.ofRun cursor.leadingGlobstar)) := by
  refine gives_of_step
    (fun (cursor : SegmentCursor) segments =>
      ∃ runs,
        Gives cursor.runs runs
        ∧ segments = cursor.pending ++ runs.flatMap (Segment.ofRun cursor.leadingGlobstar))
    ?_ ⟨runs, h, rfl⟩
  intro cursor segments hold
  obtain ⟨runs, given, rfl⟩ := hold
  obtain ⟨leadingGlobstar, source, pending⟩ := cursor
  cases pending with
  | cons segment pending => exact ⟨_, rfl, runs, given, rfl⟩
  | nil =>
      obtain ⟨later, hn, hl⟩ := given.step
      change source.next = (runs.head?, later) at hn
      cases runs with
      | nil =>
          refine ⟨{ leadingGlobstar, runs := later, pending := [] }, ?_, [], hl, rfl⟩
          simp [Source.next, next, hn]
      | cons run runs =>
          obtain ⟨segment, pending, cut⟩ := exists_ofRun_eq_cons leadingGlobstar run
          refine ⟨{ leadingGlobstar, runs := later, pending }, ?_, runs, hl, ?_⟩
          · simp [Source.next, next, hn, cut]
          · simp [cut]

/-- A cursor at the start of an expression gives its parts, which its tokens, the runs of these and
the segments that they are cut into lead to.
-/
theorem gives_parts (options : Options) (expression : Text)
    : Gives (Cursor.start options expression) (parts options expression) := by
  have tokens : Gives (TokenCursor.start .separators expression) (tokens .separators expression) :=
    gives_tokens .separators expression
  have runs : Gives (SegmentCursor.start options.leadingGlobstar expression).runs
      (runs foldsInto (PathGlob.tokens .separators expression)) :=
    RunCursor.gives_runs (Lookahead.gives_unseen tokens)
  have segments : Gives (SegmentCursor.start options.leadingGlobstar expression)
      (segments options.leadingGlobstar expression) :=
    SegmentCursor.gives_segments runs
  refine gives_of_step
    (fun (cursor : Cursor) parts =>
      ∃ segments,
        Gives cursor.segments segments ∧ parts = segments.map (Part.ofSegment cursor.trailing))
    ?_ ⟨_, segments, rfl⟩
  intro cursor parts hold
  obtain ⟨segments, given, rfl⟩ := hold
  obtain ⟨later, hn, hl⟩ := given.step
  change cursor.segments.next = (segments.head?, later) at hn
  refine ⟨{ cursor with segments := later }, ?_, segments.tail, hl, List.map_tail.symm⟩
  simp [Source.next, Cursor.next, hn]

end PathGlob
