import PathGlob.Proofs.Compilation.SpelledGlobstars
import PathGlob.Proofs.Matching.ComponentMatching

/-! Leading globstars as a way of writing. They add a globstar in front of the items of a component
and change none of these, so that an expression matches no less with them.
-/

namespace PathGlob

open ComponentGlob

/-- A final component has the same items without the asterisks in front of its last leading one. -/
theorem items_ofFinal_stars {trailing : TrailingDot} {count : Nat} {rest : Text}
    (hd : trailing ≠ .literal → ('*' :: rest).getLast? = some '.')
    : (ofFinal trailing (List.replicate count '*' ++ '*' :: rest)).items
      = (ofFinal trailing ('*' :: rest)).items := by
  have own (left : Text)
      : (ofFinal trailing (left ++ '*' :: rest)).items
        = Segment.items trailing
            { raw := left ++ '*' :: rest, kind := .wildcard, isLast := true } := by
    have wildcard : Kind.ofComponent (left ++ '*' :: rest) = .wildcard := by
      rw [Kind.ofComponent, if_pos (by simp [isWildcard])]
    have last : (left ++ '*' :: rest).getLast? = ('*' :: rest).getLast? :=
      List.getLast?_append_cons ..
    rw [← wildcard]
    exact (items_component fun h => ⟨rfl, last.trans (hd h)⟩).symm
  rw [own]
  exact (Segment.items_stars [] count rest trailing true).trans (own []).symm

theorem ofComponent_stars {final : Text → ComponentGlob} {count : Nat} {rest : Text}
    (hr : rest.head? ≠ some '*')
    : ofComponent true final (List.replicate (count + 1) '*' ++ '*' :: rest)
      = [tree, final ('*' :: rest)] := by
  simp [ofComponent, stars, takeWhile_stars hr]

theorem ofComponent_whole {leadingGlobstar : Bool} {name : Text}
    (h : leadingGlobstar = true → ¬BeginsWithStars name) (final : Text → ComponentGlob)
    : ofComponent leadingGlobstar final name = [final name] := by
  have few : ¬(leadingGlobstar && 2 ≤ stars name) = true := by
    intro hs
    rw [Bool.and_eq_true, decide_eq_true_eq, stars, two_le_stars_iff] at hs
    exact h hs.1 hs.2
  rw [ofComponent, if_neg few]

/-- A component has the same items without leading globstars, or a globstar more in front of them
with these.
-/
theorem items_ofComponent_true {trailing : TrailingDot} {name : Text}
    (hd : trailing ≠ .literal → name.getLast? = some '.')
    : (ofComponent true (ofFinal trailing) name).flatMap ComponentGlob.items
      = (if 2 ≤ stars name then [.globstar] else []) ++ (ofFinal trailing name).items := by
  by_cases hb : BeginsWithStars name
  · rw [stars, if_pos (two_le_stars_iff.mpr hb)]
    obtain ⟨count, rest, rfl, hr⟩ := hb.exists_eq
    rw [ofComponent_stars hr, items_ofFinal_stars (by simpa using hd)]
    simp [ComponentGlob.items]
  · rw [stars, if_neg fun hs => hb (two_le_stars_iff.mp hs), ofComponent_whole fun _ => hb]
    simp

-----------------------------------------------------------------------------------------
-- Paths that are accepted with and without leading globstars
-----------------------------------------------------------------------------------------

/-- A globstar may consume nothing. -/
theorem Accepts.globstar {items : List Item} {text : Text} (h : Accepts items text)
    : Accepts (.globstar :: items) text :=
  accepts_globstar_iff.mpr ⟨0, text, dropsComponents_zero_iff.mpr rfl, h⟩

theorem Accepts.append {left right : List Item} {first second : Text} (hl : Accepts left first)
    (hr : Accepts right second)
    : Accepts (left ++ right) (first ++ second) :=
  accepts_append_iff.mpr ⟨first, second, rfl, hl, hr⟩

/-- A component accepts with leading globstars what it accepts without them. -/
theorem Accepts.leadingGlobstar {trailing : TrailingDot} {name : Text}
    (hd : trailing ≠ .literal → name.getLast? = some '.') {text : Text}
    (h : Accepts ((ofComponent false (ofFinal trailing) name).flatMap ComponentGlob.items) text)
    : Accepts ((ofComponent true (ofFinal trailing) name).flatMap ComponentGlob.items) text := by
  have own : Accepts (ofFinal trailing name).items text := by
    simpa [ofComponent] using h
  rw [items_ofComponent_true hd]
  split
  next => exact own.globstar
  next => exact own

/-- An expression accepts with leading globstars what it accepts without them, by induction over
its components.
-/
theorem accepts_leadingGlobstar {options : Options} {expression text : Text}
    (h : Accepts ((parts { options with leadingGlobstar := false } expression).flatMap Part.items)
      text)
    : Accepts ((parts { options with leadingGlobstar := true } expression).flatMap Part.items)
        text := by
  induction expression using componentInduction generalizing text with
  | last name hn =>
      rw [items_last _ hn] at h ⊢
      exact h.leadingGlobstar getLast?_of_ofExpression
  | closed name separator rest hn hs ih =>
      rw [items_closed _ hn hs] at h ⊢
      obtain ⟨head, tail, rfl, hf, hr⟩ := accepts_append_iff.mp h
      refine Accepts.append ?_ (ih hr)
      by_cases ht : IsStars name
      · rw [if_pos ht] at hf ⊢
        exact hf
      · rw [if_neg ht] at hf ⊢
        obtain ⟨own, closing, rfl, ho, hc⟩ := accepts_append_iff.mp hf
        exact (@Accepts.leadingGlobstar .literal name (fun h => absurd rfl h) own ho).append hc

namespace Glob

/-- Leading globstars are a way of writing: an expression has the glob of its spelled out form
without them. It matches no less with them than without.
-/
theorem compile_leadingGlobstar (options : Options) (expression : Text)
    : compile { options with leadingGlobstar := true } expression
        = compile { options with leadingGlobstar := false } (spelledOut expression)
      ∧ ∀ without within,
        (compile { options with leadingGlobstar := false } expression).matcher = .ok without
        → (compile { options with leadingGlobstar := true } expression).matcher = .ok within
        → ∀ path, without.isMatch path = true → within.isMatch path = true := by
  refine ⟨compile_spelledOut options expression, ?_⟩
  intro without within ho hw path h
  obtain ⟨before, inside, after, hp, ha, h⟩ := (isMatch_iff_exists_accepts ho path).mp h
  exact (isMatch_iff_exists_accepts hw path).mpr
    ⟨before, inside, after, hp, ha, accepts_leadingGlobstar h⟩

/-- Asterisks in front of a name match its own component both with and without the flag. -/
theorem isMatch_stars_and_name
    : ∃ without within,
        (compile { leadingGlobstar := false } ['*', '*', 'a']).matcher = .ok without
        ∧ (compile { leadingGlobstar := true } ['*', '*', 'a']).matcher = .ok within
        ∧ without.isMatch ['b', 'a'] = true
        ∧ within.isMatch ['b', 'a'] = true := by
  have without := (@matcher_eq_ok_iff { leadingGlobstar := false } ['*', '*', 'a'] _).mpr
    ⟨by decide, rfl⟩
  have within := (@matcher_eq_ok_iff { leadingGlobstar := true } ['*', '*', 'a'] _).mpr
    ⟨by decide, rfl⟩
  refine ⟨_, _, without, within, by decide, ?_⟩
  exact (compile_leadingGlobstar {} ['*', '*', 'a']).2 _ _ without within ['b', 'a'] (by decide)

end Glob

end PathGlob
