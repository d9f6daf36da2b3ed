import Mathlib.Algebra.Ring.Nat
import Mathlib.Data.List.SplitBy
import PathGlob.Extent
import PathGlob.Proofs.Segmentation.ComponentSegments
import PathGlob.Proofs.Slicing.TokenLaws

/-! Runs as the only division of a sequence into chains that cannot go on. Cursors read these runs, or
their extents, whatever the items and the relation are; folded tokens make runs of one or of two.
-/

namespace PathGlob

open Source

-----------------------------------------------------------------------------------------
-- Division into chains
-----------------------------------------------------------------------------------------

/-- The blocks divide a sequence so that neighbours within a block are adjacent, and the last item of a
block is not adjacent to the first item of the next one.
-/
structure IsChainPartition {α : Type} (adjacent : α → α → Bool) (items : List α)
    (blocks : List (List α))
    : Prop where
  joined : blocks.flatten = items
  nonempty : ∀ block ∈ blocks, block ≠ []
  together : ∀ block ∈ blocks, block.IsChain fun left right => adjacent left right = true
  apart
    : blocks.IsChain fun left right =>
        ∃ last first,
          left.getLast? = some last ∧ right.head? = some first ∧ adjacent last first = false

namespace IsChainPartition

variable {α : Type} {adjacent : α → α → Bool} {item : α} {items : List α} {blocks : List (List α)}

/-- There is one such division only. Witness: it is the one into groups of adjacent neighbours. -/
theorem iff_eq_splitBy
    : IsChainPartition adjacent items blocks ↔ blocks = items.splitBy adjacent := by
  have boundary (left right : List α)
      : (∃ hl hr, adjacent (left.getLast hl) (right.head hr) = false)
        ↔ ∃ last first,
            left.getLast? = some last ∧ right.head? = some first ∧ adjacent last first = false := by
    constructor
    · rintro ⟨hl, hr, ha⟩
      exact ⟨_, _, List.getLast?_eq_some_getLast hl, List.head?_eq_some_head hr, ha⟩
    · rintro ⟨last, first, hl, hr, ha⟩
      rw [← List.getLast_of_getLast?_eq_some hl, ← List.head_of_head?_eq_some hr] at ha
      exact ⟨_, _, ha⟩
  rw [eq_comm, List.splitBy_eq_iff]
  simp only [boundary]
  constructor
  · intro h
    exact ⟨h.joined.symm, fun hn => h.nonempty [] hn rfl, h.together, h.apart⟩
  · rintro ⟨joined, nonempty, together, apart⟩
    exact {
      joined := joined.symm
      nonempty := fun block hb hn => nonempty (hn ▸ hb)
      together
      apart
    }

/-- An item that is not adjacent to what follows it is a block of its own. -/
theorem cons_apart (h : IsChainPartition adjacent items blocks)
    (ha : ∀ block ∈ blocks.head?, ∃ first, block.head? = some first ∧ adjacent item first = false)
    : IsChainPartition adjacent (item :: items) ([item] :: blocks) where
  joined := by rw [List.flatten_cons, h.joined, List.singleton_append]
  nonempty := List.forall_mem_cons.mpr ⟨List.cons_ne_nil item [], h.nonempty⟩
  together := List.forall_mem_cons.mpr ⟨.singleton item, h.together⟩
  apart := by
    refine List.isChain_cons.mpr ⟨?_, h.apart⟩
    intro block hb
    obtain ⟨first, hf, ha⟩ := ha block hb
    exact ⟨item, first, rfl, hf, ha⟩

/-- An item that is adjacent to what follows it joins the first block. -/
theorem cons_together {first : α} {rest : List α}
    (h : IsChainPartition adjacent items ((first :: rest) :: blocks))
    (ha : adjacent item first = true)
    : IsChainPartition adjacent (item :: items) ((item :: first :: rest) :: blocks) where
  joined := congrArg (item :: ·) h.joined
  nonempty :=
    List.forall_mem_cons.mpr
      ⟨List.cons_ne_nil item (first :: rest), (List.forall_mem_cons.mp h.nonempty).2⟩
  together := by
    obtain ⟨chain, others⟩ := List.forall_mem_cons.mp h.together
    exact List.forall_mem_cons.mpr ⟨List.isChain_cons_cons.mpr ⟨ha, chain⟩, others⟩
  apart := by
    -- The first block still ends with the same item.
    obtain ⟨next, others⟩ := List.isChain_cons.mp h.apart
    refine List.isChain_cons.mpr ⟨?_, others⟩
    simpa only [List.getLast?_cons_cons] using next

/-- Runs are such a division, by induction on the sequence. -/
theorem ofRuns (adjacent : α → α → Bool) (items : List α)
    : IsChainPartition adjacent items ((runs adjacent items).map Run.items) := by
  induction items with
  | nil =>
      exact {
        joined := rfl
        nonempty := List.forall_mem_nil _
        together := List.forall_mem_nil _
        apart := .nil
      }
  | cons item items ih =>
      change IsChainPartition adjacent (item :: items)
        ((Run.cons adjacent item (runs adjacent items)).map Run.items)
      cases hr : runs adjacent items with
      | nil =>
          rw [hr] at ih
          exact ih.cons_apart (by simp)
      | cons run later =>
          rw [hr] at ih
          rw [Run.cons]
          split
          next ha => exact ih.cons_together ha
          next ha =>
            refine ih.cons_apart ?_
            rintro block ⟨⟩
            exact ⟨run.first, rfl, eq_false_of_ne_true ha⟩

theorem iff_eq_runs
    : IsChainPartition adjacent items blocks ↔ blocks = (runs adjacent items).map Run.items := by
  rw [iff_eq_splitBy, iff_eq_splitBy.mp (ofRuns adjacent items)]

end IsChainPartition

-----------------------------------------------------------------------------------------
-- Extents
-----------------------------------------------------------------------------------------

/-- The extent is that of a block of items. -/
structure Extent.IsOf {α : Type} (extent : Extent α) (block : List α) : Prop where
  first : block.head? = some extent.first
  last : block.getLast? = some extent.last
  count : block.length = extent.count

theorem Run.isOf_extent {α : Type} (run : Run α) : run.extent.IsOf run.items where
  first := rfl
  last := run.getLast?_items
  count := rfl

section
variable {σ α : Type} [Source σ α]

/-- Reading extents gives those of the runs that reading in runs gives. -/
theorem ExtentCursor.gives_extents {cursor : ExtentCursor σ α} {items : List α}
    (h : Gives cursor.input items)
    : Gives cursor ((runs cursor.adjacent items).map Run.extent) := by
  refine gives_of_step
    (fun cursor extents =>
      ∃ found, Gives cursor.toRunCursor found ∧ extents = found.map Run.extent)
    ?_ ⟨_, RunCursor.gives_runs h, rfl⟩
  rintro cursor extents ⟨found, given, rfl⟩
  obtain ⟨later, hn, hl⟩ := given.step
  refine ⟨⟨later⟩, ?_, found.tail, hl, List.map_tail.symm⟩
  change cursor.toRunCursor.next = (found.head?, later) at hn
  change cursor.next = _
  rw [ExtentCursor.next_eq, hn, List.head?_map]

theorem gives_list (items : List α) : Gives items items := by
  refine gives_of_step Eq ?_ rfl
  rintro state items rfl
  exact ⟨state.tail, rfl, rfl⟩

end

-----------------------------------------------------------------------------------------
-- Folded tokens
-----------------------------------------------------------------------------------------

/-- A component of asterisks and the separator behind it are one run, wherever they stand. -/
theorem runs_folded {token next : Token} (h : foldsInto token next = true) (front rear : List Token)
    : runs foldsInto (front ++ [token, next] ++ rear)
      = runs foldsInto front ++ { first := token, rest := [next] } :: runs foldsInto rear := by
  obtain ⟨tree, separator⟩ := Bool.and_eq_true_iff.mp h
  rw [List.append_assoc, runs_append]
  · change _ ++ Run.cons foldsInto token (runs foldsInto (next :: rear)) = _
    rw [runs_separator separator, Run.cons, if_pos h]
    rfl
  · -- What a token is folded with is a delimiter, and the component of asterisks is none.
    intro last _ first hf
    cases hf
    simp_all [foldsInto, Token.isTree]

/-- Tokens are folded in runs of two, since what they are folded with is a separator. -/
theorem single_or_folded_of_mem_runs {tokens : List Token} {run : Run Token}
    (hm : run ∈ runs foldsInto tokens)
    : run.count = 1
      ∨ ∃ token next,
          run = { first := token, rest := [next] } ∧ foldsInto token next = true := by
  have chain := (IsChainPartition.ofRuns foldsInto tokens).together _ (List.mem_map_of_mem hm)
  obtain ⟨token, rest⟩ := run
  cases rest with
  | nil => exact Or.inl rfl
  | cons next rest =>
      obtain ⟨folded, others⟩ := List.isChain_cons_cons.mp chain
      cases rest with
      | nil => exact Or.inr ⟨token, next, rfl, folded⟩
      | cons other rest =>
          have again := (List.isChain_cons_cons.mp others).1
          simp_all [foldsInto, Token.isTree]

/-- The runs of two are those of neighbours that are folded. -/
theorem mem_runs_foldsInto_iff {tokens : List Token} {token next : Token}
    : { first := token, last := next, count := 2 } ∈ (runs foldsInto tokens).map Run.extent
      ↔ [token, next] <:+: tokens ∧ foldsInto token next = true := by
  rw [List.mem_map]
  constructor
  · rintro ⟨run, hm, he⟩
    have inside : run.items <:+: tokens := by
      have block := List.infix_of_mem_flatten (List.mem_map_of_mem (f := Run.items) hm)
      rwa [(IsChainPartition.ofRuns foldsInto tokens).joined] at block
    have two : run.count = 2 := congrArg Extent.count he
    rcases single_or_folded_of_mem_runs hm with one | ⟨first, second, rfl, folded⟩
    · exact absurd (one.symm.trans two) (by decide)
    · cases he
      exact ⟨inside, folded⟩
  · rintro ⟨⟨front, rear, rfl⟩, folded⟩
    refine ⟨{ first := token, rest := [next] }, ?_, rfl⟩
    rw [runs_folded folded]
    exact List.mem_append_right _ List.mem_cons_self

/-- A token is folded with another if it is of asterisks and the other is a separator. -/
theorem IsTokenized.foldsInto_iff {offset : Nat} {text : Text} {tokens : List Token}
    {token next : Token} (h : IsTokenized .separators offset text tokens) (ht : token ∈ tokens)
    (hn : next ∈ tokens)
    : foldsInto token next = true
      ↔ IsStars token.text ∧ ∃ c, isSeparator c = true ∧ next.text = [c] := by
  have word : isTreeText token.text = true → token.isDelimiter = false := by
    intro tree
    by_contra delimiter
    obtain ⟨c, -, single⟩ := (h.delimiters_alone token ht).mp (eq_true_of_ne_false delimiter)
    rw [single] at tree
    cases tree
  rw [← isTreeText_iff, foldsInto, Token.isTree, Bool.and_eq_true, Bool.and_eq_true,
    Bool.not_eq_true', h.delimiters_alone next hn]
  constructor
  · rintro ⟨⟨-, tree⟩, separator⟩
    exact ⟨tree, separator⟩
  · rintro ⟨tree, separator⟩
    exact ⟨⟨word tree, tree⟩, separator⟩

-----------------------------------------------------------------------------------------
-- Reading in runs
-----------------------------------------------------------------------------------------

theorem sum_count_extents {α : Type} (adjacent : α → α → Bool) (items : List α)
    : (((runs adjacent items).map Run.extent).map Extent.count).sum = items.length := by
  rw [List.map_map]
  conv => rhs; rw [← flatMap_items_runs adjacent items, List.length_flatMap]
  rfl

/-- Whatever items an input gives and whatever relation they are read by, there is one division of them
into maximal chains, and the runs read are its blocks: each with its first and last item and the number
of them, and none of the items is lost. The runs of tokens that are folded are single tokens, and pairs
of a component of asterisks and the separator right behind it.
-/
theorem runs_are_only_partition
    : (∀ {σ α : Type} [Source σ α] (adjacent : α → α → Bool) (input : Lookahead σ α)
          (items : List α),
        Gives input items
        → let extents := (runs adjacent items).map Run.extent
          let blocks := (runs adjacent items).map Run.items
          Gives ({ adjacent, input } : RunCursor σ α) (runs adjacent items)
          ∧ Gives ({ adjacent, input } : ExtentCursor σ α) extents
          ∧ (∀ others, IsChainPartition adjacent items others ↔ others = blocks)
          ∧ List.Forall₂ Extent.IsOf extents blocks
          ∧ (extents.map Extent.count).sum = items.length)
      ∧ ∀ text,
        let input : Lookahead TokenCursor Token := {
          source := .start .separators text
          seen := none
        }
        let extents := (runs foldsInto (tokens .separators text)).map Run.extent
        Gives ({ adjacent := foldsInto, input } : ExtentCursor TokenCursor Token) extents
        ∧ (∀ extent ∈ extents, extent.count = 1 ∨ extent.count = 2)
        ∧ ∀ token next,
          { first := token, last := next, count := 2 } ∈ extents
          ↔ [token, next] <:+: tokens .separators text
            ∧ (∃ stars, 2 ≤ stars ∧ token.text = List.replicate stars '*')
            ∧ ∃ c, isSeparator c = true ∧ next.text = [c] := by
  refine ⟨?_, ?_⟩
  · intro σ α _ adjacent input items given extents blocks
    refine ⟨RunCursor.gives_runs given, ExtentCursor.gives_extents given,
      fun others => IsChainPartition.iff_eq_runs, ?_, sum_count_extents adjacent items⟩
    rw [List.forall₂_map_left_iff, List.forall₂_map_right_iff, List.forall₂_same]
    exact fun run _ => run.isOf_extent
  · intro text input extents
    refine ⟨ExtentCursor.gives_extents (Lookahead.gives_unseen (gives_tokens .separators text)),
      ?_, ?_⟩
    · intro extent hm
      obtain ⟨run, hr, rfl⟩ := List.mem_map.mp hm
      rcases single_or_folded_of_mem_runs hr with one | ⟨token, next, rfl, -⟩
      · exact Or.inl one
      · exact Or.inr rfl
    · intro token next
      rw [mem_runs_foldsInto_iff]
      refine and_congr_right fun inside =>
        (isTokenized_tokens .separators text).foldsInto_iff ?_ ?_
      · exact inside.mem (by simp)
      · exact inside.mem (by simp)

/-- Numbers that are near each other make one run although its ends are far apart. -/
theorem runs_of_near_numbers
    : let near (left right : Int) : Bool := (right - left).natAbs < 2
      let input : Lookahead (List Int) Int := { source := [0, 1, 2, 3, 10], seen := none }
      Gives input [0, 1, 2, 3, 10]
      ∧ Gives ({ adjacent := near, input } : ExtentCursor (List Int) Int)
          [{ first := 0, last := 3, count := 4 }, { first := 10, last := 10, count := 1 }]
      ∧ IsChainPartition near [0, 1, 2, 3, 10] [[0, 1, 2, 3], [10]] := by
  intro near input
  have given : Gives input [0, 1, 2, 3, 10] := Lookahead.gives_unseen (gives_list _)
  obtain ⟨-, extents, partition, -, -⟩ := runs_are_only_partition.1 near input _ given
  exact ⟨given, extents, (partition _).mpr rfl⟩

end PathGlob
