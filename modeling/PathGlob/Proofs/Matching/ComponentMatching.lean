import PathGlob.Proofs.Matching.ComponentGlobs

/-! Globs matched one component after another. The parts of a glob never see the components of
a path, but an anchored glob matches exactly the paths that its components match in order.
-/

namespace PathGlob

open ComponentGlob

-----------------------------------------------------------------------------------------
-- The items of one component
-----------------------------------------------------------------------------------------

theorem ofLiteral_eq_scan {text : Text} (isDotless : Bool) (h : text.any isWildcard = false)
    : Item.ofLiteral text = Item.scan isDotless text := by
  have hw : Delimiters.wildcards.IsWord text := by
    simpa [Delimiters.IsWord, Delimiters.contains] using h
  have := Item.scan_word_append isDotless hw []
  simpa [Item.scan] using this.symm

/-- A segment of a whole component has the items that the component asks for, if the rule for a
trailing dot has a dot to drop in the last segment alone.
-/
theorem items_component {raw : Text} {isLast : Bool} {trailing : TrailingDot}
    (hd : trailing ≠ .literal → isLast = true ∧ raw.getLast? = some '.')
    : Segment.items trailing { raw, kind := .ofComponent raw, isLast }
      = (ofFinal trailing raw).items := by
  unfold Segment.items ofFinal
  cases trailing with
  | literal =>
      cases hw : raw.any isWildcard with
      | true => simp [Kind.ofComponent, hw, Item.ofWildcard_eq_scan, ComponentGlob.items]
      | false => simp [Kind.ofComponent, hw, ofLiteral_eq_scan false hw, ComponentGlob.items]
  | noExtension drops =>
      obtain ⟨rfl, hr⟩ := hd (by simp)
      have dropped : raw.withoutDot = raw.dropLast := if_pos hr
      cases hw : raw.any isWildcard with
      | true => simp [Kind.ofComponent, hw, dropped, Item.ofWildcard_eq_scan, ComponentGlob.items]
      | false =>
          have hl : raw.dropLast.any isWildcard = false := by
            rw [List.any_eq_false] at hw ⊢
            exact fun c hc => hw c ((List.dropLast_sublist raw).subset hc)
          cases drops with
          | true =>
              simp [Kind.ofComponent, hw, dropped, ofLiteral_eq_scan false hl, ComponentGlob.items]
          | false => simp [Kind.ofComponent, hw, ofLiteral_eq_scan false hw, ComponentGlob.items]

/-- What is left of a component once its asterisks but one are cut off begins with that one
and ends as the component does.
-/
theorem drop_stars {name : Text} (hs : 2 ≤ stars name)
    : Kind.ofComponent (name.drop (stars name - 1)) = .wildcard
      ∧ (name.drop (stars name - 1)).getLast? = name.getLast? := by
  have first := name.takeWhile_prefix (· == '*')
  have fewer : stars name ≤ name.length := first.length_le
  have inside : stars name - 1 < (name.takeWhile (· == '*')).length := by
    rw [← stars]
    omega
  constructor
  · have star := List.all_eq_true.mp List.all_takeWhile _ (List.getElem_mem inside)
    rw [first.getElem inside] at star
    have member : name[stars name - 1] ∈ name.drop (stars name - 1) :=
      List.mem_drop_iff_getElem.mpr ⟨0, by omega, rfl⟩
    rw [Kind.ofComponent, if_pos]
    refine List.any_eq_true.mpr ⟨_, member, ?_⟩
    rw [isWildcard, star, Bool.true_or]
  · rw [List.getLast?_drop, if_neg (by omega)]

/-- The segments of a component have the items that it asks for. -/
theorem items_ofName {leadingGlobstar isLast : Bool} {name : Text} {trailing : TrailingDot}
    (hd : trailing ≠ .literal → isLast = true ∧ name.getLast? = some '.')
    : (Segment.ofName leadingGlobstar isLast name).flatMap (Segment.items trailing)
      = (ofComponent leadingGlobstar (ofFinal trailing) name).flatMap ComponentGlob.items := by
  by_cases he : name = []
  · subst he
    cases trailing with
    | literal => simp [Segment.ofName, ofComponent, stars, ofFinal, ComponentGlob.items, Item.scan]
    | noExtension drops => cases (hd (by simp)).2
  · simp only [Segment.ofName, List.isEmpty_iff, he, if_false, Segment.ofComponent, ofComponent]
    rw [← stars]
    split
    next hs =>
      have hs := of_decide_eq_true (Bool.and_eq_true_iff.mp hs).2
      obtain ⟨hk, hl⟩ := drop_stars hs
      have left := @items_component (name.drop (stars name - 1)) isLast trailing (hl ▸ hd)
      rw [hk] at left
      simp only [List.flatMap_cons, List.flatMap_nil, left]
      rfl
    next => simp only [List.flatMap_cons, List.flatMap_nil, items_component hd]

/-- The items of a last component are those that it asks for. -/
theorem items_last (options : Options) {component : Text} (hn : IsName component)
    : (parts options component).flatMap Part.items
      = (ofComponent options.leadingGlobstar (ofFinal (.ofExpression options component))
            component).flatMap
          ComponentGlob.items := by
  rw [parts, segments_name _ hn, List.flatMap_map]
  exact items_ofName fun h => ⟨rfl, getLast?_of_ofExpression h⟩

/-- The items of a closed component come before those of what is left. -/
theorem items_closed (options : Options) {component rest : Text} {separator : Char}
    (hn : IsName component) (hs : isSeparator separator = true)
    : (parts options (component ++ separator :: rest)).flatMap Part.items
      = (if IsStars component then
          [.globstar]
        else
          (ofComponent options.leadingGlobstar (name false) component).flatMap ComponentGlob.items
            ++ [.separator])
        ++ (parts options rest).flatMap Part.items := by
  rw [parts_closed options rest hn hs, List.flatMap_append, List.flatMap_map, Segment.ofClosed]
  congr 1
  split
  next => rfl
  next =>
    have own := @items_ofName options.leadingGlobstar false component .literal
      fun h => absurd rfl h
    rw [List.flatMap_append]
    exact congrArg (· ++ [Item.separator]) own

-----------------------------------------------------------------------------------------
-- The components of an expression agree with its items
-----------------------------------------------------------------------------------------

/-- The final component asks for one name, whatever the rule for a trailing dot. -/
theorem exists_ofFinal_eq {component : Text} (hn : IsName component) (trailing : TrailingDot)
    : ∃ isDotless glob, IsName glob ∧ ofFinal trailing component = name isDotless glob := by
  have dropped : IsName component.dropLast :=
    fun c hm => hn c ((List.dropLast_sublist component).subset hm)
  cases trailing with
  | literal => exact ⟨false, component, hn, rfl⟩
  | noExtension drops =>
      simp only [ofFinal]
      split
      next => exact ⟨true, component.dropLast, dropped, rfl⟩
      next =>
        split
        next => exact ⟨false, component.dropLast, dropped, rfl⟩
        next => exact ⟨false, component, hn, rfl⟩

theorem IsName.drop {component : Text} (hn : IsName component) (count : Nat)
    : IsName (component.drop count) :=
  fun c hm => hn c (List.mem_of_mem_drop hm)

/-- What a last component asks for agrees with its items, by the cases of its asterisks. -/
theorem agrees_ofFinal {component : Text} (hn : IsName component) (leadingGlobstar : Bool)
    (trailing : TrailingDot)
    : let globs := ofComponent leadingGlobstar (ofFinal trailing) component
      Agrees (globs.flatMap ComponentGlob.items) globs := by
  have one {text : Text} (ht : IsName text)
      : Agrees (ofFinal trailing text).items [ofFinal trailing text] := by
    obtain ⟨isDotless, glob, hg, he⟩ := exists_ofFinal_eq ht trailing
    rw [he]
    exact agrees_final hg
  dsimp only
  rw [ofComponent]
  split
  next => simpa [ComponentGlob.items] using (one (hn.drop _)).tree
  next => simpa using one hn

/-- What a closed component asks for agrees with its items and those of the separator, by the
cases of its asterisks.
-/
theorem ComponentGlob.Agrees.component {items : List Item} {globs : List ComponentGlob}
    (h : Agrees items globs) (hg : globs ≠ []) {component : Text} (hn : IsName component)
    (leadingGlobstar : Bool)
    : Agrees
        ((ofComponent leadingGlobstar (name false) component).flatMap ComponentGlob.items
          ++ .separator :: items)
        (ofComponent leadingGlobstar (name false) component ++ globs) := by
  rw [ofComponent]
  split
  next => simpa [ComponentGlob.items] using (h.closed (hn.drop _) hg).tree
  next => simpa [ComponentGlob.items] using h.closed hn hg

theorem ofComponent_ne_nil {leadingGlobstar : Bool} {name : Text → ComponentGlob}
    {component : Text}
    : ofComponent leadingGlobstar name component ≠ [] := by
  rw [ofComponent]
  split <;> simp

theorem ofComponents_ne_nil {options : Options} {components : List Text} (h : components ≠ [])
    : ofComponents options components ≠ [] := by
  cases components with
  | nil => exact absurd rfl h
  | cons component components =>
      cases components with
      | nil => exact ofComponent_ne_nil
      | cons next components =>
          rw [ofComponents]
          split
          next => simp
          next => exact List.append_ne_nil_of_left_ne_nil ofComponent_ne_nil _

/-- The items of all parts agree with the components of the expression, by induction over these
components.
-/
theorem agrees_parts (options : Options) (expression : Text)
    : Agrees ((parts options expression).flatMap Part.items)
        (ofComponents options (componentsOf expression)) := by
  induction expression using componentInduction with
  | last component hn =>
      rw [componentsOf_name hn, items_last options hn, TrailingDot.ofExpression_eq_ruleFor,
        ofComponents]
      exact agrees_ofFinal hn _ _
  | closed component separator rest hn hs ih =>
      obtain ⟨next, later, hl⟩ := List.exists_cons_of_ne_nil (@componentsOf_ne_nil rest)
      have asks := @ofComponents_ne_nil options _ (@componentsOf_ne_nil rest)
      rw [items_closed options hn hs, componentsOf_closed hn hs]
      rw [hl] at ih asks ⊢
      rw [ofComponents]
      split
      next => exact ih.tree
      next => simpa using ih.component asks hn _

namespace Glob

/-- An anchored glob matches the paths whose components are what those of the expression ask
for, since its items accept exactly these paths.
-/
theorem isMatch_iff_components_accepted {options : Options} (ha : options.anchored = true)
    {expression : Text} {matcher : Matcher}
    (hm : (compile options expression).matcher = .ok matcher) (path : Text)
    : matcher.isMatch path = true
      ↔ ComponentGlob.accepts (ofComponents options (componentsOf expression))
          (componentsOf path) = true := by
  rw [isMatch_iff_accepts ha hm]
  exact agrees_parts options expression path

/-- A tree takes any number of components of a path, or none of them, and a final wildcard without its
dot takes one.
-/
theorem isMatch_tree_and_dotless_name
    : ∃ matcher,
        (compile {} ['a', '/', '*', '*', '/', 'b', '*', '.']).matcher = .ok matcher
        ∧ matcher.isMatch ['a', '/', 'b', 'c'] = true
        ∧ matcher.isMatch ['a', '/', 'x', '\\', 'b', 'c'] = true
        ∧ ¬matcher.isMatch ['a', '/', 'x', '\\', 'b', '.'] = true := by
  have built :=
    (@matcher_eq_ok_iff {} ['a', '/', '*', '*', '/', 'b', '*', '.'] _).mpr ⟨by decide, rfl⟩
  refine ⟨_, built, ?_, ?_, ?_⟩
  · exact (isMatch_iff_components_accepted rfl built _).mpr (by decide)
  · exact (isMatch_iff_components_accepted rfl built _).mpr (by decide)
  · rw [isMatch_iff_components_accepted rfl built]
    decide

end Glob

end PathGlob
