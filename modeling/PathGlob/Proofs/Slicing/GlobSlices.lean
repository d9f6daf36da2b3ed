import PathGlob.Proofs.Compilation.PartDependence
import PathGlob.Proofs.Matching.CompiledMatching
import PathGlob.Proofs.Slicing.ComponentSlices

/-! Slices of a whole expression: the texts of folded tokens and the base path, at offsets that were
found elsewhere. They lie between tokens and parts, so an expression is compiled without a failure.
-/

namespace PathGlob

-----------------------------------------------------------------------------------------
-- A run of tokens as one slice
-----------------------------------------------------------------------------------------

theorem Run.dropLast_append_last {α : Type} (run : Run α)
    : run.items.dropLast ++ [run.last] = run.items :=
  List.dropLast_append_getLast? run.last run.getLast?_items

/-- Adjacent tokens are sliced as one, from where the first of them starts to where the last of them
stops.
-/
theorem IsTokenized.slice?_run {delimiters : Delimiters} {text : Text} {front rear : List Token}
    {run : Run Token} (h : IsTokenized delimiters 0 text (front ++ run.items ++ rear))
    : Text.slice? { start := run.first.start, stop := run.last.stop } text
      = some (run.items.flatMap Token.text) := by
  have beginning : front ++ run.items ++ rear = front ++ run.first :: (run.rest ++ rear) := by
    rw [List.append_assoc, Run.items, List.cons_append]
  have ending : front ++ run.items ++ rear
      = (front ++ run.items.dropLast) ++ run.last :: rear := by
    rw [List.append_cons, List.append_assoc front run.items.dropLast, run.dropLast_append_last]
  have inside : run.items.flatMap Token.text
      = run.items.dropLast.flatMap Token.text ++ run.last.text := by
    rw [← List.flatMap_singleton Token.text run.last, ← List.flatMap_append,
      run.dropLast_append_last]
  obtain ⟨start, -⟩ := h.placed _ _ _ beginning
  obtain ⟨lastStart, stop⟩ := h.placed _ _ _ ending
  refine Text.slice?_eq_some_iff.mpr
    ⟨front.flatMap Token.text, rear.flatMap Token.text, ?_, ?_, ?_⟩
  · rw [← List.flatMap_append, ← List.flatMap_append, h.joined]
  · rw [start, Nat.zero_add]
  · rw [stop, lastStart, Nat.zero_add, ← Text.byteLength_append, List.flatMap_append, inside,
      List.append_assoc]

-----------------------------------------------------------------------------------------
-- Segments and parts
-----------------------------------------------------------------------------------------

/-- A list of computations that all have a result has the list of these, by induction on it. -/
theorem mapM_eq_some_map {α β : Type} {run? : α → Option β} {result : α → β} {items : List α}
    (h : ∀ item ∈ items, run? item = some (result item))
    : items.mapM run? = some (items.map result) := by
  induction items with
  | nil => rfl
  | cons item items ih =>
      have first := h item List.mem_cons_self
      have others := ih fun other hm => h other (List.mem_cons_of_mem _ hm)
      rw [List.mapM_cons, first, others]
      rfl

namespace Slicing

/-- The runs of an expression lie in it between other tokens, from which they can be sliced off. -/
theorem ofRun?_eq (leadingGlobstar : Bool) {expression : Text} {run : Run Token}
    (hm : run ∈ runs foldsInto (tokens .separators expression))
    : ofRun? leadingGlobstar expression run = some (Segment.ofRun leadingGlobstar run) := by
  obtain ⟨before, after, hr⟩ := List.append_of_mem hm
  have whole : tokens .separators expression
      = before.flatMap Run.items ++ run.items ++ after.flatMap Run.items := by
    rw [← flatMap_items_runs foldsInto (tokens .separators expression), hr, List.flatMap_append,
      List.flatMap_cons, List.append_assoc]
  have folded := (whole ▸ isTokenized_tokens .separators expression).slice?_run
  simp only [ofRun?, Segment.ofRun, folded, ofComponent?_eq]
  split
  next => rfl
  next => split <;> rfl

theorem segments?_eq (leadingGlobstar : Bool) (expression : Text)
    : segments? leadingGlobstar expression = some (segments leadingGlobstar expression) := by
  have cut
      : (runs foldsInto (tokens .separators expression)).mapM (ofRun? leadingGlobstar expression)
        = some ((runs foldsInto (tokens .separators expression)).map
          (Segment.ofRun leadingGlobstar)) :=
    mapM_eq_some_map fun _ => ofRun?_eq leadingGlobstar
  simp only [segments?, tokens?_eq, Option.bind_eq_bind, Option.bind_some, cut]
  rfl

theorem parts?_eq (options : Options) (expression : Text)
    : parts? options expression = some (parts options expression) := by
  simp only [parts?, segments?_eq]
  exact mapM_eq_some_map fun segment _ => ofSegment?_eq ..

end Slicing

-----------------------------------------------------------------------------------------
-- The base path
-----------------------------------------------------------------------------------------

/-- A literal part belongs to the base path only if more of the base path follows it. -/
theorem baseParts_plain_cons {first : Part} (h : first.kind = .plain) (parts : List Part)
    : baseParts (first :: parts) = if baseParts parts = [] then [] else first :: baseParts parts := by
  have kept : (first :: parts).takeWhile (fun part => !part.kind.isVariant)
      = first :: parts.takeWhile fun part => !part.kind.isVariant := by
    rw [List.takeWhile_cons_of_pos]
    rw [h]
    rfl
  simp only [baseParts, kept, List.reverse_cons, List.dropWhile_append, List.reverse_eq_nil_iff,
    List.isEmpty_iff]
  split
  next => simp [h]
  next => simp

/-- The lengths of the raw texts of parts add up to that of the text they join to. -/
theorem byteLength_flatMap_raw (parts : List Part)
    : Text.byteLength (parts.flatMap Part.raw)
      = parts.foldr (fun part length => Text.byteLength part.raw + length) 0 := by
  induction parts with
  | nil => rfl
  | cons part parts ih =>
      rw [List.flatMap_cons, Text.byteLength_append, ih, List.foldr_cons]

namespace Slicing

/-- The index is behind the parts of the base path, and is left where it was if there are none. -/
theorem baseIndexFrom_eq (index bound : Nat) (parts : List Part)
    : baseIndexFrom index bound parts
      = if baseParts parts = [] then bound else index + (baseParts parts).length := by
  induction parts generalizing index bound with
  | nil => rfl
  | cons part parts ih =>
      unfold baseIndexFrom
      cases hk : part.kind with
      | pathSeparator =>
          have base : baseParts (part :: parts) = part :: baseParts parts :=
            baseParts_closed (List.forall_mem_nil _) hk parts
          dsimp only
          rw [ih, base, if_neg (List.cons_ne_nil _ _), List.length_cons]
          cases baseParts parts with
          | nil => rfl
          | cons first base => exact Nat.add_right_comm index 1 _
      | plain =>
          dsimp only
          rw [ih, baseParts_plain_cons hk]
          cases baseParts parts with
          | nil => rfl
          | cons first base => exact Nat.add_right_comm index 1 _
      | wildcard | globstar =>
          rw [baseParts_of_isVariant (by rw [hk]; rfl), if_pos rfl]

theorem baseIndexFrom_zero (parts : List Part)
    : baseIndexFrom 0 0 parts = (baseParts parts).length := by
  rw [baseIndexFrom_eq, Nat.zero_add]
  split
  next none => rw [none, List.length_nil]
  next => rfl

theorem splitAt?_append {α : Type} (left right : List α)
    : splitAt? left.length (left ++ right) = some (left, right) := by
  simp [splitAt?]

/-- Every text is compiled without a slice outside of it or inside a character, into the parts and
the glob of the expression.
-/
theorem compile?_total (options : Options) (expression : Text)
    : parts? options expression = some (PathGlob.parts options expression)
      ∧ compile? options expression = some (Glob.compile options expression) := by
  refine ⟨parts?_eq options expression, ?_⟩
  let base := baseParts (PathGlob.parts options expression)
  let stem := stemParts (PathGlob.parts options expression)
  have joined : base ++ stem = PathGlob.parts options expression :=
    baseParts_append_stemParts (PathGlob.parts options expression)
  have divided
      : splitAt? (baseIndexFrom 0 0 (PathGlob.parts options expression))
          (PathGlob.parts options expression)
        = some (base, stem) := by
    have cut := splitAt?_append base stem
    rwa [joined, ← baseIndexFrom_zero] at cut
  have basePath
      : Text.splitAtByte? (base.foldr (fun part length => Text.byteLength part.raw + length) 0)
          expression
        = some (base.flatMap Part.raw, stem.flatMap Part.raw) := by
    have cut := Text.splitAtByte?_append (base.flatMap Part.raw) (stem.flatMap Part.raw)
    rwa [← List.flatMap_append, joined, flatMap_raw_parts, byteLength_flatMap_raw] at cut
  simp only [compile?, parts?_eq, Option.bind_eq_bind, Option.bind_some, divided, basePath]
  rfl

end Slicing

end PathGlob
