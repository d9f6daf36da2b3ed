import PathGlob.Part
import PathGlob.Source

/-! Cursors that read the parts of a glob expression one at a time. They read tokens, group them
into runs and cut these into segments, all of it no further than the next part asks for.
-/

namespace PathGlob

-----------------------------------------------------------------------------------------
-- Tokens
-----------------------------------------------------------------------------------------

/-- A place in the tokens of a text: what is left of it, and the offset of that. -/
structure TokenCursor where
  delimiters : Delimiters
  offset : Nat
  rest : Text
deriving DecidableEq

namespace TokenCursor

/-- The cursor before the first token of a text. -/
def start (delimiters : Delimiters) (text : Text) : TokenCursor where
  delimiters
  offset := 0
  rest := text

/-- Reads the next token: a delimiter, or what there is up to the next delimiter. -/
def next (cursor : TokenCursor) : Option Token × TokenCursor :=
  match cursor.rest with
  | [] => (none, cursor)
  | c :: rest =>
      let isDelimiter := cursor.delimiters.contains c
      let isInWord c := !cursor.delimiters.contains c
      let word := if isDelimiter then [c] else (c :: rest).takeWhile isInWord
      let rest := if isDelimiter then rest else (c :: rest).dropWhile isInWord
      let token := {
        text := word
        start := cursor.offset
        isDelimiter
        isLast := !isDelimiter && rest.isEmpty
      }
      (some token, { cursor with offset := token.stop, rest })

/-- A token takes at least the character that it begins with. -/
theorem length_lt_of_next {cursor later : TokenCursor} {token : Token}
    (h : cursor.next = (some token, later))
    : later.rest.length < cursor.rest.length := by
  unfold next at h
  split at h <;> cases h
  next c rest hc =>
    rw [hc]
    dsimp only
    split
    next => exact Nat.lt_succ_self _
    next hd =>
      rw [List.dropWhile_cons_of_pos (by simpa using hd)]
      exact Nat.lt_succ_of_le (List.dropWhile_suffix _).length_le

instance : Source TokenCursor Token where
  next := next
  bound cursor := cursor.rest.length
  bound_lt := length_lt_of_next

end TokenCursor

-----------------------------------------------------------------------------------------
-- Segments
-----------------------------------------------------------------------------------------

/-- A place in the segments of a glob expression: those that have been cut already, and the runs of
tokens that are left.
-/
structure SegmentCursor where
  leadingGlobstar : Bool
  runs : RunCursor TokenCursor Token
  pending : List Segment

namespace SegmentCursor

/-- The cursor before the first segment of an expression. -/
def start (leadingGlobstar : Bool) (expression : Text) : SegmentCursor where
  leadingGlobstar
  runs := {
    adjacent := foldsInto
    input := { source := .start .separators expression, seen := none }
  }
  pending := []

/-- Reads the next segment, and leaves pending what else its run is cut into. -/
def next (cursor : SegmentCursor) : Option Segment × SegmentCursor :=
  match cursor.pending with
  | segment :: pending => (some segment, { cursor with pending })
  | [] =>
      match cursor.runs.next with
      | (some run, runs) =>
          let segments := Segment.ofRun cursor.leadingGlobstar run
          (segments.head?, { cursor with runs, pending := segments.tail })
      | (none, runs) => (none, { cursor with runs })

/-- A run is cut into at most two segments. -/
theorem length_ofRun_le (leadingGlobstar : Bool) (run : Run Token)
    : (Segment.ofRun leadingGlobstar run).length ≤ 2 := by
  simp only [Segment.ofRun, Segment.ofComponent]
  split
  next => simp
  next =>
    split
    next => simp
    next => split <;> simp

/-- An upper bound on the number of segments that are left. -/
def bound (cursor : SegmentCursor) : Nat :=
  cursor.pending.length + 2 * Source.bound cursor.runs

theorem bound_lt_of_next {cursor later : SegmentCursor} {segment : Segment}
    (h : cursor.next = (some segment, later))
    : later.bound < cursor.bound := by
  unfold next at h
  split at h
  next _ pending hp =>
    cases h
    simp only [bound, hp, List.length_cons]
    omega
  next hp =>
    split at h
    next run runs hr =>
      obtain ⟨-, rfl⟩ := Prod.mk.inj h
      have fewer := Source.bound_lt (show Source.next cursor.runs = _ from hr)
      have few := length_ofRun_le cursor.leadingGlobstar run
      simp only [bound, hp, List.length_nil, List.length_tail]
      omega
    next => cases h

instance : Source SegmentCursor Segment where
  next := next
  bound := bound
  bound_lt := bound_lt_of_next

end SegmentCursor

-----------------------------------------------------------------------------------------
-- Parts
-----------------------------------------------------------------------------------------

/-- A place in the parts of a glob expression. -/
structure Cursor where
  trailing : TrailingDot
  segments : SegmentCursor

namespace Cursor

/-- The cursor before the first part of an expression. -/
def start (options : Options) (expression : Text) : Cursor where
  trailing := .ofExpression options expression
  segments := .start options.leadingGlobstar expression

/-- Reads the next part, unless the cursor is at the end. -/
def next (cursor : Cursor) : Option Part × Cursor :=
  let (segment, segments) := cursor.segments.next
  (segment.map (Part.ofSegment cursor.trailing), { cursor with segments })

theorem bound_lt_of_next {cursor later : Cursor} {part : Part}
    (h : cursor.next = (some part, later))
    : later.segments.bound < cursor.segments.bound := by
  obtain ⟨given, rfl⟩ := Prod.mk.inj h
  obtain ⟨segment, hs, -⟩ := Option.map_eq_some_iff.mp given
  exact SegmentCursor.bound_lt_of_next (Prod.ext hs rfl)

instance : Source Cursor Part where
  next := next
  bound cursor := cursor.segments.bound
  bound_lt := bound_lt_of_next

end Cursor

/-- A step on one of several cursors, which are numbered in the order of their making. -/
inductive CursorStep where
  /-- Reads the next part. -/
  | next (index : Nat)
  /-- Makes a new cursor that stands where the given one does. -/
  | clone (index : Nat)
  /-- Reads every part that is left. -/
  | rest (index : Nat)
deriving DecidableEq

/-- What a step on a cursor answers. -/
inductive CursorAnswer where
  /-- The part that was read, or nothing at the end. -/
  | part (part : Option Part)
  /-- The number of the new cursor. -/
  | cursor (index : Nat)
  /-- The raw texts of the parts that were read. -/
  | raws (raws : List Text)
deriving DecidableEq

namespace CursorStep

/-- Takes one step; there is no answer for a cursor that has not been made. -/
def take? (cursors : List Cursor) : CursorStep → Option (CursorAnswer × List Cursor)
  | next index => cursors[index]?.map fun cursor =>
      let (part, moved) := cursor.next
      (.part part, cursors.set index moved)
  | clone index => cursors[index]?.map fun cursor =>
      (.cursor cursors.length, cursors ++ [cursor])
  | rest index => cursors[index]?.map fun cursor =>
      let (parts, moved) := Source.drain cursor
      (.raws (parts.map Part.raw), cursors.set index moved)

/-- The answers to a sequence of steps, unless one of them is on a cursor not made yet. -/
def answers? (cursors : List Cursor) : List CursorStep → Option (List CursorAnswer)
  | [] => some []
  | step :: steps => do
      let (answer, cursors) ← step.take? cursors
      let answers ← answers? cursors steps
      return answer :: answers

end CursorStep

end PathGlob
