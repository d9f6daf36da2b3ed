import PathGlob.Item

/-! What the items of a glob expression consume, with a count for each item that repeats.
Asterisks count characters, and a globstar counts complete components.
-/

namespace PathGlob

/-- A complete component of a path: characters that are no separators, then one separator. -/
def IsCompleteComponent (text : Text) : Prop :=
  ∃ name separator,
    text = name ++ [separator]
    ∧ (∀ c ∈ name, isSeparator c = false)
    ∧ isSeparator separator = true

theorem isCompleteComponent_cons_iff {c : Char} {text : Text}
    : IsCompleteComponent (c :: text)
      ↔ isSeparator c = true ∧ text = []
        ∨ isSeparator c = false ∧ IsCompleteComponent text := by
  constructor
  · intro h
    obtain ⟨name, separator, he, hn, hs⟩ := h
    cases name with
    | nil =>
        cases he
        exact Or.inl ⟨hs, rfl⟩
    | cons d name =>
        cases he
        exact Or.inr ⟨hn c (by simp), name, separator, rfl, fun d hd => hn d (by simp [hd]), hs⟩
  · intro h
    rcases h with ⟨hs, rfl⟩ | ⟨hc, name, separator, rfl, hn, hs⟩
    · exact ⟨[], c, rfl, by simp, hs⟩
    · exact ⟨c :: name, separator, rfl, by simpa [hc] using hn, hs⟩

/-- A text begins with the given number of complete components, and goes on as the rest. -/
def DropsComponents (count : Nat) (text rest : Text) : Prop :=
  ∃ components : List Text,
    components.length = count
    ∧ (∀ component ∈ components, IsCompleteComponent component)
    ∧ text = components.flatten ++ rest

/-- A separator closes the first component, and any other character belongs to its name. -/
theorem dropsComponents_cons_iff {c : Char} {text rest : Text} {count : Nat}
    : DropsComponents (count + 1) (c :: text) rest
      ↔ DropsComponents (if isSeparator c then count else count + 1) text rest := by
  constructor
  · intro h
    obtain ⟨components, hn, hc, he⟩ := h
    cases components with
    | nil => cases hn
    | cons first components =>
        have ho : ∀ component ∈ components, IsCompleteComponent component :=
          fun component hm => hc component (by simp [hm])
        cases first with
        | nil =>
            obtain ⟨name, separator, hl, -, -⟩ := hc [] (by simp)
            simp at hl
        | cons d first =>
            simp only [List.flatten_cons, List.cons_append, List.cons.injEq] at he
            obtain ⟨rfl, he⟩ := he
            have hf := hc (c :: first) (by simp)
            rcases isCompleteComponent_cons_iff.mp hf with ⟨hs, rfl⟩ | ⟨hs, hf⟩
            · exact ⟨components, by simpa [hs] using hn, ho, by simpa using he⟩
            · exact ⟨first :: components, by simpa [hs] using hn, by simpa using ⟨hf, ho⟩,
                by simpa using he⟩
  · intro h
    obtain ⟨components, hn, hc, he⟩ := h
    by_cases hs : isSeparator c = true
    · have hf : IsCompleteComponent [c] :=
        isCompleteComponent_cons_iff.mpr (Or.inl ⟨hs, rfl⟩)
      exact ⟨[c] :: components, by simpa [hs] using hn, by simpa using ⟨hf, hc⟩, by simp [he]⟩
    · rw [if_neg hs] at hn
      cases components with
      | nil => cases hn
      | cons first components =>
          have hf : IsCompleteComponent (c :: first) :=
            isCompleteComponent_cons_iff.mpr (Or.inr ⟨by simpa using hs, hc first (by simp)⟩)
          refine ⟨(c :: first) :: components, by simpa using hn, ?_, by simp [he]⟩
          simpa using ⟨hf, fun component hm => hc component (by simp [hm])⟩

theorem dropsComponents_zero_iff {text rest : Text}
    : DropsComponents 0 text rest ↔ text = rest := by
  constructor
  · intro h
    obtain ⟨components, hn, -, he⟩ := h
    simpa [List.length_eq_zero_iff.mp hn] using he
  · intro h
    exact ⟨[], rfl, by simp, by simpa using h⟩

theorem not_dropsComponents_nil {rest : Text} {count : Nat}
    : ¬DropsComponents (count + 1) [] rest := by
  intro h
  obtain ⟨components, hn, hc, he⟩ := h
  cases components with
  | nil => cases hn
  | cons first components =>
      obtain ⟨name, separator, rfl, -, -⟩ := hc first (by simp)
      simp at he

namespace Item

/-- Whether a wildcard accepts the character. -/
def admits (isDotless : Bool) (c : Char) : Bool :=
  !isSeparator c && !(isDotless && c == '.')

/-- An item consumes a text, and counts what it repeats. -/
inductive Consumes : Item → List Nat → Text → Prop
  | literal (c : Char) : Consumes (literal c) [] [c]
  | separator {c : Char} (separates : isSeparator c = true) : Consumes separator [] [c]
  | one {isDotless : Bool} {c : Char} (admitted : admits isDotless c = true)
    : Consumes (one isDotless) [] [c]
  | many {isDotless : Bool} {run : Text} (admitted : ∀ c ∈ run, admits isDotless c = true)
    : Consumes (many isDotless) [run.length] run
  | globstar {components : List Text}
    (complete : ∀ component ∈ components, IsCompleteComponent component)
    : Consumes globstar [components.length] components.flatten

end Item

/-- Items consume a text one after another; their counts are in the order of the items. -/
inductive Consumes : List Item → List Nat → Text → Prop
  | nil : Consumes [] [] []
  | cons {item : Item} {items : List Item} {own counts : List Nat} {head tail : Text}
    (first : item.Consumes own head) (others : Consumes items counts tail)
    : Consumes (item :: items) (own ++ counts) (head ++ tail)

/-- Appended items consume what either list of them does, by induction on the first list. -/
theorem consumes_append_iff {left right : List Item} {counts : List Nat} {text : Text}
    : Consumes (left ++ right) counts text
      ↔ ∃ leftCounts rightCounts head tail,
          counts = leftCounts ++ rightCounts
          ∧ text = head ++ tail
          ∧ Consumes left leftCounts head
          ∧ Consumes right rightCounts tail := by
  constructor
  · intro h
    induction left generalizing counts text with
    | nil => exact ⟨[], counts, [], text, rfl, rfl, .nil, h⟩
    | cons item left ih =>
        cases h with
        | @cons _ _ own _ head _ first others =>
            obtain ⟨leftCounts, rightCounts, middle, tail, rfl, rfl, hl, hr⟩ := ih others
            exact ⟨own ++ leftCounts, rightCounts, head ++ middle, tail, by simp, by simp,
              .cons first hl, hr⟩
  · intro h
    obtain ⟨leftCounts, rightCounts, head, tail, rfl, rfl, hl, hr⟩ := h
    induction hl with
    | nil => exact hr
    | cons first others ih =>
        rw [List.append_assoc, List.append_assoc]
        exact .cons first ih

end PathGlob
