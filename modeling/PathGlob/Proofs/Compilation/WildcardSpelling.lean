import PathGlob.Proofs.Compilation.PatternDecoding
import PathGlob.Proofs.Slicing.ComponentSlices

/-! The pattern of a component with wildcards, written in one pass over its characters. Neither tokens
nor their runs leave a trace in it: only the character before one can change what it is written as.
-/

namespace PathGlob

/-- What a character of a component with wildcards is written as behind the one before it. An asterisk
directly behind another one is not written at all.
-/
def wildcardFragment (isDotless : Bool) (previous : Option Char) (c : Char) : Text :=
  if c = '*' then
    if previous = some '*' then [] else Item.spelling (.many isDotless)
  else if c = '?' then
    Item.spelling (.one isDotless)
  else
    CharSet.escape CharSet.metas c

/-- What a component with wildcards is written as, from left to right. -/
def wildcardSpelling (isDotless : Bool) (previous : Option Char) : Text → Text
  | [] => []
  | c :: rest =>
      wildcardFragment isDotless previous c ++ wildcardSpelling isDotless (some c) rest

section
variable {isDotless : Bool}

/-- The character before a text matters only if both it and the first one are asterisks. -/
theorem wildcardSpelling_eq_none {previous : Option Char} {text : Text}
    (h : previous = some '*' → text.head? ≠ some '*')
    : wildcardSpelling isDotless previous text = wildcardSpelling isDotless none text := by
  cases text with
  | nil => rfl
  | cons c rest =>
      have same : wildcardFragment isDotless previous c = wildcardFragment isDotless none c := by
        unfold wildcardFragment
        split
        next hc =>
          subst hc
          rw [if_neg fun hp => h hp rfl, if_neg (Option.some_ne_none '*').symm]
        next => rfl
      rw [wildcardSpelling, wildcardSpelling, same]

/-- The first of adjacent asterisks stands for all of them. -/
theorem wildcardSpelling_stars {text : Text} (h : text.head? = some '*')
    : wildcardSpelling isDotless none text
      = Item.spelling (.many isDotless) ++ wildcardSpelling isDotless (some '*') text := by
  obtain ⟨rest, rfl⟩ := List.head?_eq_some_iff.mp h
  rfl

/-- Of adjacent asterisks the pass writes the first and the items have the last, which makes no
difference to the text. Witness: induction on the items read.
-/
theorem flatMap_spelling_scan (text : Text)
    : (Item.scan isDotless text).flatMap Item.spelling = wildcardSpelling isDotless none text := by
  fun_induction Item.scan isDotless text with
  | case1 => rfl
  | case2 rest hn ih =>
      rw [ih, wildcardSpelling_stars hn]
      rfl
  | case3 rest hn ih =>
      rw [List.flatMap_cons, ih, ← wildcardSpelling_eq_none fun _ => hn]
      rfl
  | case4 rest hs ih =>
      have behind : wildcardSpelling isDotless (some '?') rest
          = wildcardSpelling isDotless none rest :=
        wildcardSpelling_eq_none fun hp => absurd (Option.some.inj hp) hs
      rw [List.flatMap_cons, ih, ← behind]
      rfl
  | case5 c rest hs hq ih =>
      have written : wildcardFragment isDotless none c = Item.spelling (.literal c) := by
        rw [wildcardFragment, if_neg hs, if_neg hq]
        rfl
      rw [List.flatMap_cons, ih, ← written, wildcardSpelling,
        wildcardSpelling_eq_none fun hp => absurd (Option.some.inj hp) hs]

end

/-- The pattern of the first `bound` bytes of a component with wildcards is written in one pass, for
every bound that is a cut of the component; there is none for another bound. Without a bound it is
that of the whole component.
-/
theorem wildcard_pattern_in_one_pass (isDotless : Bool) (raw : Text)
    : (∀ bound,
        (Slicing.ofWildcard? isDotless bound raw).map
            (fun items => Part.pattern { raw, kind := .wildcard, items })
          = (raw.splitAtByte? bound).map fun cut => wildcardSpelling isDotless none cut.1)
      ∧ Part.pattern { raw, kind := .wildcard, items := Item.ofWildcard isDotless raw }
        = wildcardSpelling isDotless none raw := by
  have written (text : Text)
      : Part.pattern { raw, kind := .wildcard, items := Item.ofWildcard isDotless text }
        = wildcardSpelling isDotless none text := by
    rw [Part.pattern, Part.terms, Item.flatMap_text_map_term, Item.ofWildcard_eq_scan,
      flatMap_spelling_scan]
  refine ⟨fun bound => ?_, written raw⟩
  rw [Slicing.ofWildcard?, Slicing.tokensWithin?_eq, tokensWithin?]
  cases raw.splitAtByte? bound with
  | none => rfl
  | some cut => exact congrArg some (written cut.1)

end PathGlob
