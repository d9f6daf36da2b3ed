import PathGlob.Proofs.Matching.Consumption

/-! All ways of items to consume a beginning of a text, in the order in which a search prefers
them. Greater counts come before smaller ones, and no two ways have the same counts.
-/

namespace PathGlob

-----------------------------------------------------------------------------------------
-- The order of counts
-----------------------------------------------------------------------------------------

/-- The counts are smaller in the order in which the first of them that differ decide. -/
def CountsLess (left right : List Nat) : Prop :=
  List.Lex (· < ·) left right

namespace CountsLess

theorem irrefl (counts : List Nat) : ¬CountsLess counts counts :=
  List.lt_irrefl counts

theorem append {left right : List Nat} (h : CountsLess left right) (counts : List Nat)
    : CountsLess (counts ++ left) (counts ++ right) :=
  List.append_left_lt h

/-- Counts that are no greater than each other are the same. -/
theorem antisymm {left right : List Nat} (hl : left = right ∨ CountsLess left right)
    (hr : right = left ∨ CountsLess right left)
    : left = right := by
  rcases hl with he | hl
  · exact he
  · rcases hr with he | hr
    · exact he.symm
    · exact absurd hr (List.lt_asymm hl)

end CountsLess

-----------------------------------------------------------------------------------------
-- The ways of one item
-----------------------------------------------------------------------------------------

namespace Item

/-- What is left after one accepted character. -/
def takeOne (accepts : Char → Bool) : Text → List (List Nat × Text)
  | [] => []
  | c :: rest => if accepts c then [([], rest)] else []

/-- One more repetition in front of those counted, with the same rest. -/
def oneMore (taken : Nat × Text) : Nat × Text :=
  (taken.1 + 1, taken.2)

/-- The repetitions as the counts of one item, with the same rest. -/
def counted (taken : Nat × Text) : List Nat × Text :=
  ([taken.1], taken.2)

/-- What is left after accepted characters, as many as possible first. -/
def takeMany (accepts : Char → Bool) : Text → List (Nat × Text)
  | [] => [(0, [])]
  | c :: rest =>
      if accepts c then
        (takeMany accepts rest).map oneMore ++ [(0, c :: rest)]
      else
        [(0, c :: rest)]

/-- What is left after one or more complete components, as many as possible first. -/
def takeComponents : Text → List (Nat × Text)
  | [] => []
  | c :: rest =>
      if isSeparator c then
        (takeComponents rest).map oneMore ++ [(1, rest)]
      else
        takeComponents rest

/-- The ways of an item to consume a beginning of a text: its counts and what is left. -/
def takes : Item → Text → List (List Nat × Text)
  | literal c, text => takeOne (fun d => c == d) text
  | separator, text => takeOne isSeparator text
  | one isDotless, text => takeOne (admits isDotless) text
  | many isDotless, text => (takeMany (admits isDotless) text).map counted
  | globstar, text => (takeComponents text ++ [(0, text)]).map counted

theorem mem_takeOne {accepts : Char → Bool} {text rest : Text} {own : List Nat}
    : (own, rest) ∈ takeOne accepts text
      ↔ own = [] ∧ ∃ c, accepts c = true ∧ text = c :: rest := by
  cases text with
  | nil => simp [takeOne]
  | cons c text =>
      by_cases hc : accepts c = true
      · simp only [takeOne, hc, if_true, List.mem_singleton, Prod.mk.injEq, List.cons.injEq]
        constructor
        · intro h
          exact ⟨h.1, c, hc, rfl, h.2.symm⟩
        · intro h
          obtain ⟨ho, d, -, -, hr⟩ := h
          exact ⟨ho, hr.symm⟩
      · simp only [takeOne, hc, Bool.false_eq_true, if_false, List.not_mem_nil, false_iff]
        intro h
        obtain ⟨-, d, hd, he⟩ := h
        cases he
        exact hc hd

/-- Taken characters are a run of accepted ones, by induction on the text. -/
theorem mem_takeMany {accepts : Char → Bool} {text rest : Text} {count : Nat}
    : (count, rest) ∈ takeMany accepts text
      ↔ ∃ run, count = run.length ∧ (∀ c ∈ run, accepts c = true) ∧ text = run ++ rest := by
  induction text generalizing count with
  | nil =>
      simp only [takeMany, List.mem_singleton, Prod.mk.injEq, List.nil_eq_append_iff]
      constructor
      · intro h
        exact ⟨[], h.1, by simp, rfl, h.2⟩
      · intro h
        obtain ⟨run, rfl, -, rfl, rfl⟩ := h
        exact ⟨rfl, rfl⟩
  | cons c text ih =>
      have stop : (∃ run, count = run.length ∧ (∀ d ∈ run, accepts d = true)
            ∧ c :: text = run ++ rest)
          ↔ (count = 0 ∧ rest = c :: text)
            ∨ accepts c = true ∧ ∃ run, count = run.length + 1
              ∧ (∀ d ∈ run, accepts d = true) ∧ text = run ++ rest := by
        constructor
        · intro h
          obtain ⟨run, hn, ha, he⟩ := h
          cases run with
          | nil => exact Or.inl ⟨hn, he.symm⟩
          | cons d run =>
              cases he
              exact Or.inr ⟨ha c (by simp), run, hn, fun d hd => ha d (by simp [hd]), rfl⟩
        · intro h
          rcases h with ⟨rfl, rfl⟩ | ⟨hc, run, rfl, ha, rfl⟩
          · exact ⟨[], rfl, by simp, rfl⟩
          · exact ⟨c :: run, rfl, by simpa [hc] using ha, rfl⟩
      rw [stop]
      by_cases hc : accepts c = true
      · simp only [takeMany, hc, if_true, List.mem_append, List.mem_map, Prod.exists, oneMore,
          Prod.mk.injEq, List.mem_singleton, true_and]
        constructor
        · intro h
          rcases h with ⟨n, left, hm, rfl, rfl⟩ | h
          · obtain ⟨run, rfl, ha, rfl⟩ := ih.mp hm
            exact Or.inr ⟨run, rfl, ha, rfl⟩
          · exact Or.inl h
        · intro h
          rcases h with h | ⟨run, rfl, ha, rfl⟩
          · exact Or.inr h
          · exact Or.inl ⟨run.length, rest, ih.mpr ⟨run, rfl, ha, rfl⟩, rfl, rfl⟩
      · simp [takeMany, hc]

/-- Taken components are complete and at least one, by induction on the text. -/
theorem mem_takeComponents {text rest : Text} {count : Nat}
    : (count, rest) ∈ takeComponents text ↔ 0 < count ∧ DropsComponents count text rest := by
  induction text generalizing count with
  | nil =>
      cases count with
      | zero => simp [takeComponents]
      | succ count => simp [takeComponents, not_dropsComponents_nil]
  | cons c text ih =>
      cases count with
      | zero =>
          by_cases hc : isSeparator c = true
          · simp [takeComponents, hc, oneMore]
          · simp [takeComponents, hc, ih]
      | succ count =>
          rw [dropsComponents_cons_iff]
          by_cases hc : isSeparator c = true
          · simp only [takeComponents, hc, if_true, List.mem_append, List.mem_map, Prod.exists,
              oneMore, Prod.mk.injEq, List.mem_singleton, Nat.succ_pos, true_and]
            cases count with
            | zero =>
                rw [dropsComponents_zero_iff]
                simp [ih, eq_comm]
            | succ count => simp [ih]
          · simp [takeComponents, hc, ih]

/-- The ways of an item are what it consumes, by the cases of the item. -/
theorem mem_takes {item : Item} {text rest : Text} {own : List Nat}
    : (own, rest) ∈ item.takes text
      ↔ ∃ head, item.Consumes own head ∧ text = head ++ rest := by
  constructor
  · intro h
    cases item with
    | literal c =>
        obtain ⟨rfl, d, hd, rfl⟩ := mem_takeOne.mp h
        obtain rfl : c = d := by simpa using hd
        exact ⟨[c], .literal c, rfl⟩
    | separator =>
        obtain ⟨rfl, c, hc, rfl⟩ := mem_takeOne.mp h
        exact ⟨[c], .separator hc, rfl⟩
    | one isDotless =>
        obtain ⟨rfl, c, hc, rfl⟩ := mem_takeOne.mp h
        exact ⟨[c], .one hc, rfl⟩
    | many isDotless =>
        obtain ⟨⟨count, left⟩, hm, he⟩ := List.mem_map.mp h
        cases he
        obtain ⟨run, rfl, ha, rfl⟩ := mem_takeMany.mp hm
        exact ⟨run, .many ha, rfl⟩
    | globstar =>
        obtain ⟨⟨count, left⟩, hm, he⟩ := List.mem_map.mp h
        cases he
        have hd : DropsComponents count text left := by
          rcases List.mem_append.mp hm with hm | hm
          · exact (mem_takeComponents.mp hm).2
          · cases List.mem_singleton.mp hm
            exact dropsComponents_zero_iff.mpr rfl
        obtain ⟨components, rfl, hc, rfl⟩ := hd
        exact ⟨components.flatten, .globstar hc, rfl⟩
  · intro h
    obtain ⟨head, hc, rfl⟩ := h
    cases hc with
    | literal c => exact mem_takeOne.mpr ⟨rfl, c, by simp, rfl⟩
    | separator hc => exact mem_takeOne.mpr ⟨rfl, _, hc, rfl⟩
    | one hc => exact mem_takeOne.mpr ⟨rfl, _, hc, rfl⟩
    | many ha =>
        exact List.mem_map.mpr ⟨(head.length, rest), mem_takeMany.mpr ⟨head, rfl, ha, rfl⟩, rfl⟩
    | @globstar components hc =>
        refine List.mem_map.mpr ⟨(components.length, rest), ?_, rfl⟩
        have hd : DropsComponents components.length (components.flatten ++ rest) rest :=
          ⟨components, rfl, hc, rfl⟩
        cases hn : components.length with
        | zero =>
            simp [List.length_eq_zero_iff.mp hn]
        | succ count =>
            rw [hn] at hd
            exact List.mem_append_left _ (mem_takeComponents.mpr ⟨Nat.succ_pos _, hd⟩)

theorem sorted_takeMany (accepts : Char → Bool) (text : Text)
    : (takeMany accepts text).Pairwise fun earlier later => later.1 < earlier.1 := by
  induction text with
  | nil => simp [takeMany]
  | cons c text ih =>
      by_cases hc : accepts c = true
      · simp only [takeMany, hc, if_true, List.pairwise_append, List.pairwise_map, oneMore,
          List.pairwise_singleton, List.mem_map, List.mem_singleton, true_and]
        refine ⟨ih.imp (by omega), ?_⟩
        intro earlier hm later he
        obtain ⟨taken, -, rfl⟩ := hm
        subst he
        exact Nat.succ_pos _
      · simp [takeMany, hc]

theorem sorted_takeComponents (text : Text)
    : (takeComponents text).Pairwise fun earlier later => later.1 < earlier.1 := by
  induction text with
  | nil => simp [takeComponents]
  | cons c text ih =>
      by_cases hc : isSeparator c = true
      · simp only [takeComponents, hc, if_true, List.pairwise_append, List.pairwise_map, oneMore,
          List.pairwise_singleton, List.mem_map, List.mem_singleton, true_and]
        refine ⟨ih.imp (by omega), ?_⟩
        intro earlier hm later he
        obtain ⟨taken, hm, rfl⟩ := hm
        subst he
        exact Nat.succ_lt_succ (mem_takeComponents.mp hm).1
      · simpa [takeComponents, hc] using ih

/-- Earlier ways have greater counts, whatever counts of other items follow. -/
theorem sorted_takes (item : Item) (text : Text)
    : (item.takes text).Pairwise fun earlier later =>
        ∀ counts others, CountsLess (later.1 ++ others) (earlier.1 ++ counts) := by
  have single (accepts : Char → Bool)
      : (takeOne accepts text).Pairwise fun earlier later =>
          ∀ counts others, CountsLess (later.1 ++ others) (earlier.1 ++ counts) := by
    fun_cases takeOne accepts text <;> simp
  have repeated {ways : List (Nat × Text)}
      (h : ways.Pairwise fun earlier later => later.1 < earlier.1)
      : (ways.map counted).Pairwise fun earlier later =>
          ∀ counts others, CountsLess (later.1 ++ others) (earlier.1 ++ counts) := by
    refine List.pairwise_map.mpr (h.imp fun hl counts others => ?_)
    exact .rel hl
  cases item with
  | literal c => exact single _
  | separator => exact single _
  | one isDotless => exact single _
  | many isDotless => exact repeated (sorted_takeMany ..)
  | globstar =>
      refine repeated (List.pairwise_append.mpr ⟨sorted_takeComponents text, by simp, ?_⟩)
      intro earlier hm later he
      cases List.mem_singleton.mp he
      exact (mem_takeComponents.mp hm).1

end Item

-----------------------------------------------------------------------------------------
-- The ways of items one after another
-----------------------------------------------------------------------------------------

/-- The ways of items to consume a beginning of a text: their counts and what is left. -/
def splits : List Item → Text → List (List Nat × Text)
  | [], text => [([], text)]
  | item :: items, text =>
      (item.takes text).flatMap fun taken =>
        (splits items taken.2).map fun split => (taken.1 ++ split.1, split.2)

/-- The ways of items are what they consume, by induction on the items. -/
theorem mem_splits {items : List Item} {text rest : Text} {counts : List Nat}
    : (counts, rest) ∈ splits items text
      ↔ ∃ inside, Consumes items counts inside ∧ text = inside ++ rest := by
  induction items generalizing text counts with
  | nil =>
      simp only [splits, List.mem_singleton, Prod.mk.injEq]
      constructor
      · intro h
        obtain ⟨rfl, rfl⟩ := h
        exact ⟨[], .nil, rfl⟩
      · intro h
        obtain ⟨inside, hc, rfl⟩ := h
        cases hc
        exact ⟨rfl, rfl⟩
  | cons item items ih =>
      simp only [splits, List.mem_flatMap, List.mem_map, Prod.exists, Prod.mk.injEq]
      constructor
      · intro h
        obtain ⟨own, middle, ht, others, left, hs, rfl, rfl⟩ := h
        obtain ⟨head, hf, rfl⟩ := Item.mem_takes.mp ht
        obtain ⟨tail, ho, rfl⟩ := ih.mp hs
        exact ⟨head ++ tail, .cons hf ho, by simp⟩
      · intro h
        obtain ⟨inside, hc, rfl⟩ := h
        cases hc with
        | @cons _ _ own others head tail hf ho =>
            exact ⟨own, tail ++ rest, Item.mem_takes.mpr ⟨head, hf, by simp⟩, others, rest,
              ih.mpr ⟨tail, ho, rfl⟩, rfl, rfl⟩

/-- Earlier ways have greater counts in the order of the items, by induction on the items. -/
theorem sorted_splits (items : List Item) (text : Text)
    : (splits items text).Pairwise fun earlier later => CountsLess later.1 earlier.1 := by
  induction items generalizing text with
  | nil => simp [splits]
  | cons item items ih =>
      refine List.pairwise_flatMap.mpr ⟨?_, (item.sorted_takes text).imp ?_⟩
      · intro taken _
        exact List.pairwise_map.mpr ((ih taken.2).imp fun h => h.append taken.1)
      · intro earlier later hl split hs other ho
        obtain ⟨_, -, rfl⟩ := List.mem_map.mp hs
        obtain ⟨_, -, rfl⟩ := List.mem_map.mp ho
        exact hl ..

/-- Appended items are split one list after the other. -/
theorem splits_append (left right : List Item) (text : Text)
    : splits (left ++ right) text
      = (splits left text).flatMap fun split =>
          (splits right split.2).map fun other => (split.1 ++ other.1, other.2) := by
  induction left generalizing text with
  | nil => simp [splits]
  | cons item left ih =>
      simp [splits, ih, List.map_flatMap, List.flatMap_map, List.flatMap_assoc,
        Function.comp_def]

end PathGlob
