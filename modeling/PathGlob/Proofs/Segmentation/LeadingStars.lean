import PathGlob.Proofs.Segmentation.ComponentSegments

/-! Components that begin with two or more asterisks. All of these but one are cut off if leading
globstars are allowed, and what is left begins with exactly one.
-/

namespace PathGlob

/-- The text begins with two or more asterisks. -/
def BeginsWithStars (text : Text) : Prop :=
  ['*', '*'] <+: text

instance (text : Text) : Decidable (BeginsWithStars text) :=
  inferInstanceAs (Decidable (['*', '*'] <+: text))

theorem two_le_stars_iff {text : Text}
    : 2 ≤ (text.takeWhile (· == '*')).length ↔ BeginsWithStars text := by
  unfold BeginsWithStars
  rcases text with _ | ⟨c, _ | ⟨d, text⟩⟩
  · simp
  · by_cases hc : c = '*' <;> simp [hc]
  · by_cases hc : '*' = c
    · subst hc
      by_cases hd : '*' = d
      · subst hd
        simp
      · simp [hd, Ne.symm hd]
    · simp [hc, Ne.symm hc]

theorem not_beginsWithStars_of_plain {text : Text} (hp : ∀ c ∈ text, isWildcard c = false)
    : ¬BeginsWithStars text := by
  intro hb
  obtain ⟨rest, rfl⟩ := hb
  cases hp '*' (by simp)

theorem beginsWithStars_dot_iff {text : Text}
    : BeginsWithStars (text ++ ['.']) ↔ BeginsWithStars text := by
  unfold BeginsWithStars
  rcases text with _ | ⟨c, _ | ⟨d, text⟩⟩ <;> simp

theorem head?_dot {text : Text} (h : text.head? ≠ some '*') : (text ++ ['.']).head? ≠ some '*' := by
  cases text with
  | nil => simp
  | cons c text => exact h

/-- Leading asterisks, of which the last is told apart, stand in front of a rest that begins with
none, by induction on the text.
-/
theorem BeginsWithStars.exists_eq {text : Text} (h : BeginsWithStars text)
    : ∃ count rest,
        text = List.replicate (count + 1) '*' ++ '*' :: rest ∧ rest.head? ≠ some '*' := by
  obtain ⟨rest, rfl⟩ := h
  induction rest with
  | nil => exact ⟨0, [], rfl, by simp⟩
  | cons c rest ih =>
      by_cases hc : c = '*'
      · subst hc
        obtain ⟨count, rest, he, hr⟩ := ih
        exact ⟨count + 1, rest, congrArg (List.cons '*') he, hr⟩
      · exact ⟨0, c :: rest, rfl, by simpa using hc⟩

section
variable {count : Nat} {rest : Text} (hr : rest.head? ≠ some '*')
include hr

theorem takeWhile_stars
    : (List.replicate (count + 1) '*' ++ '*' :: rest).takeWhile (· == '*')
      = List.replicate (count + 2) '*' := by
  have stop : rest.takeWhile (· == '*') = [] := by
    cases rest with
    | nil => rfl
    | cons c rest =>
        have hc : c ≠ '*' := by simpa using hr
        simp [hc]
  induction count with
  | zero => simp [stop]
  | succ count ih => simpa [List.replicate_succ] using ih

theorem dropWhile_stars
    : (List.replicate (count + 1) '*' ++ '*' :: rest).dropWhile (· == '*') = rest := by
  have whole := (List.replicate (count + 1) '*' ++ '*' :: rest).takeWhile_append_dropWhile
    (p := (· == '*'))
  rw [takeWhile_stars hr] at whole
  rw [List.append_cons, ← List.replicate_succ'] at whole ⊢
  exact List.append_cancel_left whole

/-- One asterisk alone does not stand for whole components. -/
theorem not_isStars_star : ¬IsStars ('*' :: rest) := by
  cases rest with
  | nil => decide
  | cons c rest =>
      have hc : c ≠ '*' := by simpa using hr
      simp [isStars_iff, hc]

namespace Segment

/-- Leading asterisks but one are a globstar, and the one that is left begins a wildcard. -/
theorem ofComponent_stars (isLast : Bool)
    : ofComponent true isLast (List.replicate (count + 1) '*' ++ '*' :: rest)
      = (ofTree (List.replicate (count + 1) '*'),
          [{ raw := '*' :: rest, kind := .wildcard, isLast }]) := by
  simp [ofComponent, takeWhile_stars hr]

end Segment

end

namespace Segment

/-- A component stays whole unless leading asterisks are cut off. -/
theorem ofComponent_whole {leadingGlobstar : Bool} {text : Text}
    (h : leadingGlobstar = true → ¬BeginsWithStars text) (isLast : Bool)
    : ofComponent leadingGlobstar isLast text
      = ({ raw := text, kind := .ofComponent text, isLast }, []) := by
  have whole : ¬(leadingGlobstar && 2 ≤ (text.takeWhile (· == '*')).length) = true := by
    intro hs
    rw [Bool.and_eq_true, decide_eq_true_eq, two_le_stars_iff] at hs
    exact h hs.1 hs.2
  rw [ofComponent, if_neg whole]

/-- A component without wildcards is one plain segment. -/
theorem ofName_plain {name : Text} (he : name ≠ []) (hp : ∀ c ∈ name, isWildcard c = false)
    (leadingGlobstar isLast : Bool)
    : ofName leadingGlobstar isLast name = [{ raw := name, kind := .plain, isLast }] := by
  have kind : Kind.ofComponent name = .plain := by
    rw [Kind.ofComponent, if_neg]
    simpa using hp
  rw [ofName, if_neg (by simpa using he),
    ofComponent_whole fun _ => not_beginsWithStars_of_plain hp, kind]

theorem ofName_eq_ofComponent {name : Text} (hw : name.any isWildcard = true)
    (leadingGlobstar isLast : Bool)
    : ofName leadingGlobstar isLast name
      = (ofComponent leadingGlobstar isLast name).1
        :: (ofComponent leadingGlobstar isLast name).2 := by
  have nonempty : ¬name.isEmpty = true := by
    intro he
    rw [List.isEmpty_iff.mp he] at hw
    cases hw
  rw [ofName, if_neg nonempty]

/-- A component with wildcards begins with a variant segment. -/
theorem exists_ofName_eq_cons {name : Text} (hw : name.any isWildcard = true)
    (leadingGlobstar isLast : Bool)
    : ∃ first later,
        ofName leadingGlobstar isLast name = first :: later ∧ first.kind.isVariant = true := by
  refine ⟨_, _, ofName_eq_ofComponent hw leadingGlobstar isLast, ?_⟩
  rw [ofComponent]
  split
  next => rfl
  next => simp [Kind.ofComponent, hw, Kind.isVariant]

end Segment

end PathGlob
