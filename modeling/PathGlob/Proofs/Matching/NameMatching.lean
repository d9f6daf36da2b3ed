import PathGlob.Proofs.Matching.Acceptance

/-! The ordinary matcher of one component, which knows nothing of separators. The items of a
component accept the names that it matches, since no wildcard crosses a separator.
-/

namespace PathGlob

/-- What an asterisk accepts in front of what the given matcher does. -/
def skipsTo (isDotless : Bool) (accepts : Text → Bool) : Text → Bool
  | [] => accepts []
  | c :: name =>
      accepts (c :: name) || !(isDotless && c == '.') && skipsTo isDotless accepts name

/-- What one character of those given accepts in front of what the given matcher does. -/
def takesTo (allowed : Char → Bool) (accepts : Text → Bool) : Text → Bool
  | [] => false
  | c :: name => allowed c && accepts name

/-- Whether a name matches a component of a glob: an asterisk stands for any characters, a
question mark for any one character, and all else for itself. Dotless wildcards exclude dots.
-/
def nameMatches (isDotless : Bool) : Text → Text → Bool
  | [] => List.isEmpty
  | c :: glob =>
      if c = '*' then
        skipsTo isDotless (nameMatches isDotless glob)
      else if c = '?' then
        takesTo (fun d => !(isDotless && d == '.')) (nameMatches isDotless glob)
      else
        takesTo (fun d => c == d) (nameMatches isDotless glob)

section
variable {isDotless : Bool}

theorem admits_eq_true_iff {c : Char}
    : Item.admits isDotless c = true
      ↔ isSeparator c = false ∧ (!(isDotless && c == '.')) = true := by
  rw [Item.admits, Bool.and_eq_true, Bool.not_eq_true']

/-- An asterisk after another one accepts nothing more, by induction on the name. -/
theorem skipsTo_skipsTo (accepts : Text → Bool) (name : Text)
    : skipsTo isDotless (skipsTo isDotless accepts) name = skipsTo isDotless accepts name := by
  induction name with
  | nil => rfl
  | cons c name ih =>
      rw [skipsTo, ih, skipsTo]
      cases accepts (c :: name) <;> simp

/-- An asterisk accepts the names that the matcher skips through, by induction on the name. -/
theorem accepts_many_iff_skipsTo {items : List Item} {accepts : Text → Bool}
    (h : ∀ name, Accepts items name ↔ IsName name ∧ accepts name = true) (name : Text)
    : Accepts (.many isDotless :: items) name
      ↔ IsName name ∧ skipsTo isDotless accepts name = true := by
  induction name with
  | nil =>
      rw [accepts_many_iff, h]
      simp [skipsTo]
  | cons c name ih =>
      have step : (∃ d rest, c :: name = d :: rest ∧ Item.admits isDotless d = true
            ∧ Accepts (.many isDotless :: items) rest)
          ↔ Item.admits isDotless c = true ∧ Accepts (.many isDotless :: items) name := by
        constructor
        · intro hs
          obtain ⟨d, rest, he, ha, hr⟩ := hs
          cases he
          exact ⟨ha, hr⟩
        · intro hs
          exact ⟨c, name, rfl, hs.1, hs.2⟩
      rw [accepts_many_iff, h, step, ih, admits_eq_true_iff, isName_cons_iff, skipsTo,
        Bool.or_eq_true, Bool.and_eq_true]
      constructor
      · intro hs
        rcases hs with ⟨hn, ha⟩ | ⟨⟨hc, hd⟩, hn, hs⟩
        · exact ⟨hn, Or.inl ha⟩
        · exact ⟨⟨hc, hn⟩, Or.inr ⟨hd, hs⟩⟩
      · intro hs
        obtain ⟨hn, ha | ⟨hd, hs⟩⟩ := hs
        · exact Or.inl ⟨hn, ha⟩
        · exact Or.inr ⟨⟨hn.1, hd⟩, hn.2, hs⟩

/-- A character accepts the names that begin with it, as long as it is no separator. -/
theorem accepts_iff_takesTo {item : Item} {items : List Item} {allowed : Char → Bool}
    {accepts : Text → Bool}
    (hi : ∀ name, Accepts (item :: items) name
      ↔ ∃ c rest, name = c :: rest
        ∧ (isSeparator c = false ∧ allowed c = true) ∧ Accepts items rest)
    (h : ∀ name, Accepts items name ↔ IsName name ∧ accepts name = true) (name : Text)
    : Accepts (item :: items) name ↔ IsName name ∧ takesTo allowed accepts name = true := by
  rw [hi]
  constructor
  · intro hs
    obtain ⟨c, rest, rfl, ⟨hc, ha⟩, hr⟩ := hs
    obtain ⟨hn, hr⟩ := (h rest).mp hr
    exact ⟨isName_cons_iff.mpr ⟨hc, hn⟩, by rw [takesTo, ha, hr]; rfl⟩
  · intro hs
    obtain ⟨hn, ht⟩ := hs
    cases name with
    | nil => cases ht
    | cons c rest =>
        obtain ⟨ha, hr⟩ := Bool.and_eq_true_iff.mp ht
        obtain ⟨hc, hn⟩ := isName_cons_iff.mp hn
        exact ⟨c, rest, rfl, ⟨hc, ha⟩, (h rest).mpr ⟨hn, hr⟩⟩

/-- The items of a component accept the names that it matches, by induction on the
component.
-/
theorem accepts_scan_iff {glob : Text} (hg : IsName glob) (name : Text)
    : Accepts (Item.scan isDotless glob) name
      ↔ IsName name ∧ nameMatches isDotless glob name = true := by
  induction glob generalizing name with
  | nil =>
      rw [Item.scan, accepts_nil_iff, nameMatches, List.isEmpty_iff]
      constructor
      · intro h
        subst h
        exact ⟨by simp [IsName], rfl⟩
      · intro h
        exact h.2
  | cons c glob ih =>
      obtain ⟨hc, hg⟩ := isName_cons_iff.mp hg
      have ih := ih hg
      rw [Item.scan, nameMatches]
      by_cases hs : c = '*'
      · rw [if_pos hs, if_pos hs]
        split
        next hh =>
          obtain ⟨rest, rfl⟩ : ∃ rest, glob = '*' :: rest := by
            cases glob with
            | nil => cases hh
            | cons d rest => exact ⟨rest, by rw [Option.some.inj hh]⟩
          have twice : skipsTo isDotless (nameMatches isDotless ('*' :: rest)) name
              = nameMatches isDotless ('*' :: rest) name :=
            skipsTo_skipsTo (nameMatches isDotless rest) name
          rw [ih, twice]
        next => exact accepts_many_iff_skipsTo ih name
      · rw [if_neg hs, if_neg hs]
        by_cases hq : c = '?'
        · rw [if_pos hq, if_pos hq]
          refine accepts_iff_takesTo (fun name => ?_) ih name
          simp only [accepts_one_iff, admits_eq_true_iff]
        · rw [if_neg hq, if_neg hq]
          refine accepts_iff_takesTo (fun name => ?_) ih name
          rw [accepts_literal_iff]
          constructor
          · intro h
            obtain ⟨rest, rfl, hr⟩ := h
            exact ⟨c, rest, rfl, ⟨hc, beq_self_eq_true c⟩, hr⟩
          · intro h
            obtain ⟨d, rest, rfl, ⟨-, hd⟩, hr⟩ := h
            exact ⟨rest, by rw [eq_of_beq hd], hr⟩

end

end PathGlob
