import PathGlob.Proofs.Compilation.LiteralDirectories
import PathGlob.Proofs.Matching.Concatenation
import PathGlob.Proofs.Matching.LeadingGlobstars

/-! Globstars between two components. A second one changes no match, since a search that takes
components with both of them goes on where it does with one, and a first one loses none.
-/

namespace PathGlob

-----------------------------------------------------------------------------------------
-- A search with two globstars
-----------------------------------------------------------------------------------------

namespace Regex

section
variable {length : Nat} {anchored : Bool}

theorem outcomeOf_globstar (places : List Place) (text : Text)
    : outcomeOf length anchored (.term Item.globstar.term :: places) text
      = ((Item.takeComponents text).findSome? (outcomeAfter length anchored places)).or
          (outcomeOf length anchored places text) := by
  rw [(slotBefore_globstar text).2, List.findSome?_append, List.findSome?_singleton]
  rfl

/-- Behind components that a globstar has taken, a second one takes only what the first might have
taken as well and has tried before; the induction is on the text.
-/
theorem findSome?_takeComponents_globstar (places : List Place) (text : Text)
    : (Item.takeComponents text).findSome?
          (outcomeAfter length anchored (.term Item.globstar.term :: places))
      = (Item.takeComponents text).findSome? (outcomeAfter length anchored places) := by
  induction text with
  | nil => rfl
  | cons c rest ih =>
      by_cases hc : isSeparator c = true
      · simp only [Item.takeComponents, hc, if_true, List.findSome?_append, findSome?_oneMore, ih,
          List.findSome?_singleton]
        rw [outcomeAfter, outcomeOf_globstar, ← Option.or_assoc, Option.or_self]
        rfl
      · simpa [Item.takeComponents, hc] using ih

/-- A globstar behind another one changes no outcome. -/
theorem outcomeOf_globstar_globstar (places : List Place)
    : outcomeOf length anchored
          (.term Item.globstar.term :: .term Item.globstar.term :: places)
      = outcomeOf length anchored (.term Item.globstar.term :: places) := by
  funext text
  rw [outcomeOf_globstar, outcomeOf_globstar, findSome?_takeComponents_globstar,
    ← Option.or_assoc, Option.or_self]

/-- Places with the same outcomes have these behind any others, by induction on the others. -/
theorem outcomeOf_append_congr {left right : List Place}
    (h : outcomeOf length anchored left = outcomeOf length anchored right) (front : List Place)
    : outcomeOf length anchored (front ++ left) = outcomeOf length anchored (front ++ right) := by
  induction front with
  | nil => exact h
  | cons place front ih =>
      funext text
      rw [List.cons_append, List.cons_append, outcomeOf, outcomeOf, ih]

end

/-- Searches agree if the outcomes of their places do, by induction on the text. -/
theorem find?_congr {left right : Regex} (ha : left.anchored = right.anchored)
    (ho : ∀ length,
      outcomeOf length left.anchored left.places = outcomeOf length left.anchored right.places)
    (text : Text)
    : left.find? text = right.find? text := by
  have here (rest : Text)
      : matchAt (Text.byteLength text) left.anchored left.places rest
        = matchAt (Text.byteLength text) left.anchored right.places rest := by
    rw [matchAt, matchAt, ho]
  have first (rest : Text)
      : firstMatch (Text.byteLength text) left.anchored left.places rest
        = firstMatch (Text.byteLength text) left.anchored right.places rest := by
    induction rest with
    | nil => exact here []
    | cons c rest ih => rw [firstMatch, firstMatch, here, ih]
  rw [find?_eq_firstMatch, find?_eq_firstMatch, ← ha]
  exact first text

/-- A search with two globstars one behind the other finds what it finds with one. -/
theorem find?_globstar_globstar (anchored : Bool) (lead front items : List Item) (text : Text)
    : (ofItems anchored lead (front ++ .globstar :: .globstar :: items)).find? text
      = (ofItems anchored lead (front ++ .globstar :: items)).find? text := by
  have outcomes (length : Nat)
      : outcomeOf length anchored
            (ofItems anchored lead (front ++ .globstar :: .globstar :: items)).places
        = outcomeOf length anchored
            (ofItems anchored lead (front ++ .globstar :: items)).places := by
    have behind := @outcomeOf_append_congr length anchored _ _
      (outcomeOf_globstar_globstar (items.map fun item => .term item.term))
      (lead.map (fun item => .term item.term)
        ++ .stemStart :: front.map fun item => .term item.term)
    simpa [places, ofItems, Function.comp_def] using behind
  refine find?_congr ?_ outcomes text
  rfl

end Regex

-----------------------------------------------------------------------------------------
-- Expressions with globstars between two components
-----------------------------------------------------------------------------------------

theorem endsComponent_globstar : EndsComponent ['*', '*', '/'] := by
  simp [EndsComponent, isSeparator]

/-- The base path ends in front of a globstar. -/
theorem basePath_globstar (options : Options) (left right : Text)
    : (Glob.compile options (left ++ ['*', '*', '/'] ++ right)).basePath
      = (Glob.compile options left).basePath := by
  rw [List.append_assoc, List.cons_append, Glob.basePath_append_wildcard options rfl]

theorem leadReading_globstar (options : Options) (left right : Text)
    : leadReading options (left ++ ['*', '*', '/'] ++ right) = leadReading options left := by
  rw [leadReading_eq_map, leadReading_eq_map, basePath_globstar]

section
variable {options : Options} {left : Text} (h : EndsComponent left) (right : Text)
include h

theorem flatMap_items_globstar
    : (parts options (left ++ ['*', '*', '/'] ++ right)).flatMap Part.items
      = (parts options left).flatMap Part.items
        ++ .globstar :: (parts options right).flatMap Part.items := by
  rw [parts_append options (h.append endsComponent_globstar), parts_append options h]
  simp only [List.flatMap_append, List.append_assoc]
  rfl

/-- A globstar at the start of a component is behind the stem of what is in front of it. -/
theorem stemReading_globstar
    : stemReading options (left ++ ['*', '*', '/'] ++ right)
      = stemReading options left ++ .globstar :: (parts options right).flatMap Part.items := by
  have whole := leadReading_append_stemReading options (left ++ ['*', '*', '/'] ++ right)
  rw [flatMap_items_globstar h, leadReading_globstar, ← leadReading_append_stemReading options left,
    List.append_assoc (leadReading options left)] at whole
  exact List.append_cancel_left whole

/-- The regular expression of a glob with a globstar at the start of a component. -/
theorem matcher_globstar_eq_ok_iff {matcher : Matcher}
    : (Glob.compile options (left ++ ['*', '*', '/'] ++ right)).matcher = .ok matcher
      ↔ itemsSize ((parts options left).flatMap Part.items)
            + itemsSize (.globstar :: (parts options right).flatMap Part.items)
          ≤ Regex.sizeLimit
        ∧ {
            regex :=
              Regex.ofItems options.anchored (leadReading options left)
                (stemReading options left
                  ++ .globstar :: (parts options right).flatMap Part.items)
          } = matcher := by
  rw [Glob.matcher_eq_ok_iff, size_ofItems, leadReading_append_stemReading,
    flatMap_items_globstar h, itemsSize_append, leadReading_globstar,
    stemReading_globstar h]

/-- A second globstar behind the first one changes nothing that is found. -/
theorem find?_second_globstar {twice : Matcher}
    (ht : (Glob.compile options (left ++ ['*', '*', '/'] ++ ['*', '*', '/'] ++ right)).matcher
      = .ok twice)
    : ∃ once,
        (Glob.compile options (left ++ ['*', '*', '/'] ++ right)).matcher = .ok once
        ∧ ∀ path, twice.find? path = once.find? path := by
  have second : (parts options (['*', '*', '/'] ++ right)).flatMap Part.items
      = .globstar :: (parts options right).flatMap Part.items := by
    rw [parts_append options endsComponent_globstar, List.flatMap_append]
    rfl
  rw [List.append_assoc (left ++ ['*', '*', '/']), matcher_globstar_eq_ok_iff h, second] at ht
  obtain ⟨size, rfl⟩ := ht
  have smaller : itemsSize ((parts options left).flatMap Part.items)
        + itemsSize (.globstar :: (parts options right).flatMap Part.items)
      ≤ Regex.sizeLimit := by
    simp only [itemsSize, List.foldr_cons] at size ⊢
    omega
  refine ⟨_, (matcher_globstar_eq_ok_iff h right).mpr ⟨smaller, rfl⟩, fun path => ?_⟩
  exact Regex.find?_globstar_globstar ..

/-- A globstar loses no match, since it may take no component. -/
theorem isMatch_first_globstar {once : Matcher}
    (ho : (Glob.compile options (left ++ ['*', '*', '/'] ++ right)).matcher = .ok once)
    : ∃ plain,
        (Glob.compile options (left ++ right)).matcher = .ok plain
        ∧ ∀ path, plain.isMatch path = true → once.isMatch path = true := by
  have items : (parts options (left ++ right)).flatMap Part.items
      = (parts options left).flatMap Part.items ++ (parts options right).flatMap Part.items := by
    rw [parts_append options h, List.flatMap_append]
  have size := Glob.exists_matcher_iff.mp ⟨once, ho⟩
  rw [flatMap_items_globstar h, itemsSize_append] at size
  have smaller : itemsSize ((parts options (left ++ right)).flatMap Part.items)
      ≤ Regex.sizeLimit := by
    rw [items, itemsSize_append]
    simp only [itemsSize, List.foldr_cons] at size ⊢
    omega
  obtain ⟨plain, hp⟩ := Glob.exists_matcher_iff.mpr smaller
  refine ⟨plain, hp, fun path hm => ?_⟩
  obtain ⟨before, inside, after, he, ha, hi⟩ := (Glob.isMatch_iff_exists_accepts hp path).mp hm
  rw [items] at hi
  obtain ⟨head, tail, rfl, hl, hr⟩ := accepts_append_iff.mp hi
  refine (Glob.isMatch_iff_exists_accepts ho path).mpr ⟨before, _, after, he, ha, ?_⟩
  rw [flatMap_items_globstar h]
  exact hl.append hr.globstar

end

namespace Glob

/-- A globstar between two components is idempotent and loses no match. A second one behind it
changes neither the base path nor what is found in any path, and what matches without any of them
matches with one. Expressions with fewer globstars are no larger, so their matchers can be built.
-/
theorem compile_globstar (options : Options) {left : Text} (h : EndsComponent left) (right : Text)
    : let globstar : Text := ['*', '*', '/']
      (compile options (left ++ globstar ++ globstar ++ right)).basePath
        = (compile options (left ++ globstar ++ right)).basePath
      ∧ (∀ twice,
        (compile options (left ++ globstar ++ globstar ++ right)).matcher = .ok twice
        → ∃ once,
            (compile options (left ++ globstar ++ right)).matcher = .ok once
            ∧ ∀ path, twice.find? path = once.find? path)
      ∧ ∀ once,
        (compile options (left ++ globstar ++ right)).matcher = .ok once
        → ∃ plain,
            (compile options (left ++ right)).matcher = .ok plain
            ∧ ∀ path, plain.isMatch path = true → once.isMatch path = true := by
  refine ⟨?_, fun twice => find?_second_globstar h right,
    fun once => isMatch_first_globstar h right⟩
  rw [List.append_assoc, basePath_globstar, basePath_globstar]

/-- Two globstars between names take a component together, and either is there for none. -/
theorem compile_globstar_between_names
    : EndsComponent ['a', '/']
      ∧ ∃ twice once plain,
        (compile {} ['a', '/', '*', '*', '/', '*', '*', '/', 'c']).matcher = .ok twice
        ∧ (compile {} ['a', '/', '*', '*', '/', 'c']).matcher = .ok once
        ∧ (compile {} ['a', '/', 'c']).matcher = .ok plain
        ∧ once.find? ['a', '/', 'b', '/', 'c'] = some { span := ⟨0, 5⟩, stem := ⟨2, 5⟩ }
        ∧ twice.find? ['a', '/', 'b', '/', 'c'] = once.find? ['a', '/', 'b', '/', 'c']
        ∧ plain.isMatch ['a', '/', 'c'] = true
        ∧ once.isMatch ['a', '/', 'c'] = true := by
  have ends : EndsComponent ['a', '/'] := by simp [EndsComponent, isSeparator]
  have built :=
    (@matcher_eq_ok_iff {} ['a', '/', '*', '*', '/', '*', '*', '/', 'c'] _).mpr ⟨by decide, rfl⟩
  obtain ⟨-, second, first⟩ := compile_globstar {} ends ['c']
  obtain ⟨once, ho, same⟩ := second _ built
  obtain ⟨plain, hp, kept⟩ := first once ho
  refine ⟨ends, _, once, plain, built, ho, hp, ?_, same _, ?_, kept _ ?_⟩
  · obtain ⟨-, rfl⟩ := matcher_eq_ok_iff.mp ho
    decide
  · obtain ⟨-, rfl⟩ := matcher_eq_ok_iff.mp hp
    decide
  · obtain ⟨-, rfl⟩ := matcher_eq_ok_iff.mp hp
    decide

end Glob

end PathGlob
