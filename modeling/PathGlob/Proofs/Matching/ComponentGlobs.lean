import PathGlob.Proofs.Matching.NameMatching

/-! Globs as lists of components, matched against the components of paths. Expression and path
are cut at every separator, and one recursion over the two lists decides.
-/

namespace PathGlob

/-- What a component of an expression asks of the components of a path. -/
inductive ComponentGlob where
  /-- Any number of components, all but the last one at most. -/
  | tree
  /-- One component whose name matches. -/
  | name (isDotless : Bool) (glob : Text)

namespace ComponentGlob

/-- The number of asterisks that a component begins with. -/
def stars (component : Text) : Nat :=
  (component.takeWhile (· == '*')).length

/-- A component of leading asterisks, if they are allowed to stand for whole components, is
a tree and the component that begins with the last of them.
-/
def ofComponent (leadingGlobstar : Bool) (name : Text → ComponentGlob) (component : Text)
    : List ComponentGlob :=
  if leadingGlobstar && 2 ≤ stars component then
    [tree, name (component.drop (stars component - 1))]
  else
    [name component]

/-- The final component under the rule for a trailing dot. -/
def ofFinal (trailing : TrailingDot) (component : Text) : ComponentGlob :=
  match trailing with
  | .literal => name false component
  | .noExtension drops =>
      if component.any isWildcard then
        name true component.dropLast
      else if drops then
        name false component.dropLast
      else
        name false component

/-- What the components of an expression ask, one after another. Two or more asterisks are a
tree unless they are the final component, which alone can be subject to the rule for a
trailing dot.
-/
def ofComponents (options : Options) : List Text → List ComponentGlob
  | [] => []
  | [final] => ofComponent options.leadingGlobstar (ofFinal (.ruleFor options final)) final
  | component :: next :: components =>
      (if IsStars component then
        [tree]
      else
        ofComponent options.leadingGlobstar (name false) component)
      ++ ofComponents options (next :: components)

/-- Whether the given matcher accepts the components that are left once any number of them
has been dropped, but not all.
-/
def dropsTo (accepts : List Text → Bool) : List Text → Bool
  | [] => false
  | component :: components =>
      accepts (component :: components) || dropsTo accepts components

/-- Whether the components of a path are what those of an expression ask for. -/
def accepts : List ComponentGlob → List Text → Bool
  | [], components => components.isEmpty
  | tree :: globs, components => dropsTo (accepts globs) components
  | name isDotless glob :: globs, components =>
      match components with
      | [] => false
      | component :: components =>
          nameMatches isDotless glob component && accepts globs components

/-- The items that stand for what a component asks. -/
def items : ComponentGlob → List Item
  | tree => [.globstar]
  | name isDotless glob => Item.scan isDotless glob

end ComponentGlob

-----------------------------------------------------------------------------------------
-- The components of a path and what items accept of them
-----------------------------------------------------------------------------------------

/-- The components of a text, of which each but the last one is closed by a separator. -/
def componentsOf (text : Text) : List Text :=
  text.splitOnP isSeparator

theorem componentsOf_name {name : Text} (hn : IsName name) : componentsOf name = [name] :=
  List.splitOnP_eq_singleton hn

theorem componentsOf_closed {name : Text} {separator : Char} (hn : IsName name)
    (hs : isSeparator separator = true) (rest : Text)
    : componentsOf (name ++ separator :: rest) = name :: componentsOf rest :=
  List.splitOnP_append_cons_of_forall_mem hn separator hs rest

theorem componentsOf_ne_nil {text : Text} : componentsOf text ≠ [] :=
  List.splitOnP_ne_nil isSeparator text

/-- A text has only one name that its first separator closes. -/
theorem closed_inj {left right rest more : Text} {c d : Char} (hl : IsName left)
    (hr : IsName right) (hc : isSeparator c = true) (hd : isSeparator d = true)
    (he : left ++ c :: rest = right ++ d :: more)
    : left = right ∧ c = d ∧ rest = more := by
  obtain ⟨rfl, tails⟩ := name_append_inj hl (by simpa using hc) hr (by simpa using hd) he
  obtain ⟨rfl, rfl⟩ := List.cons.inj tails
  exact ⟨rfl, rfl, rfl⟩

/-- The first component dropped from a text is the one that the first separator closes. -/
theorem dropsComponents_closed_iff {name rest left : Text} {separator : Char} {count : Nat}
    (hn : IsName name) (hs : isSeparator separator = true)
    : DropsComponents (count + 1) (name ++ separator :: rest) left
      ↔ DropsComponents count rest left := by
  induction name with
  | nil => rw [List.nil_append, dropsComponents_cons_iff, if_pos hs]
  | cons c name ih =>
      obtain ⟨hc, hn⟩ := isName_cons_iff.mp hn
      rw [List.cons_append, dropsComponents_cons_iff, hc]
      exact ih hn

theorem dropsComponents_name_iff {name left : Text} {count : Nat} (hn : IsName name)
    : DropsComponents count name left ↔ count = 0 ∧ name = left := by
  induction name with
  | nil =>
      cases count with
      | zero => simp [dropsComponents_zero_iff]
      | succ count => simp [not_dropsComponents_nil]
  | cons c name ih =>
      cases count with
      | zero => simp [dropsComponents_zero_iff]
      | succ count =>
          obtain ⟨hc, hn⟩ := isName_cons_iff.mp hn
          rw [dropsComponents_cons_iff, hc]
          simpa using ih hn

namespace ComponentGlob

/-- Components are dropped by a tree as a globstar does, by induction over those of the
path.
-/
theorem dropsTo_componentsOf_iff {accepts : List Text → Bool} (path : Text)
    : dropsTo accepts (componentsOf path) = true
      ↔ ∃ count rest, DropsComponents count path rest ∧ accepts (componentsOf rest) = true := by
  induction path using componentInduction with
  | last name hn =>
      rw [componentsOf_name hn]
      simp only [dropsTo, Bool.or_false]
      constructor
      · intro h
        exact ⟨0, name, dropsComponents_zero_iff.mpr rfl, by rwa [componentsOf_name hn]⟩
      · intro h
        obtain ⟨count, rest, hd, h⟩ := h
        obtain ⟨-, rfl⟩ := (dropsComponents_name_iff hn).mp hd
        rwa [componentsOf_name hn] at h
  | closed name separator rest hn hs ih =>
      rw [componentsOf_closed hn hs, dropsTo, Bool.or_eq_true, ih]
      constructor
      · intro h
        rcases h with h | ⟨count, left, hd, h⟩
        · refine ⟨0, _, dropsComponents_zero_iff.mpr rfl, ?_⟩
          rwa [componentsOf_closed hn hs]
        · exact ⟨count + 1, left, (dropsComponents_closed_iff hn hs).mpr hd, h⟩
      · intro h
        obtain ⟨count, left, hd, h⟩ := h
        cases count with
        | zero =>
            obtain rfl := dropsComponents_zero_iff.mp hd
            rw [componentsOf_closed hn hs] at h
            exact Or.inl h
        | succ count => exact Or.inr ⟨count, left, (dropsComponents_closed_iff hn hs).mp hd, h⟩

theorem accepts_nil_of_ne_nil {globs : List ComponentGlob} (h : globs ≠ [])
    : accepts globs [] = false := by
  cases globs with
  | nil => exact absurd rfl h
  | cons glob globs => cases glob <;> rfl

/-- The items accept the paths whose components are what is asked for. -/
def Agrees (items : List Item) (globs : List ComponentGlob) : Prop :=
  ∀ path, Accepts items path ↔ accepts globs (componentsOf path) = true

theorem Agrees.tree {items : List Item} {globs : List ComponentGlob} (h : Agrees items globs)
    : Agrees (.globstar :: items) (tree :: globs) := by
  intro path
  rw [accepts_globstar_iff, accepts, dropsTo_componentsOf_iff]
  simp only [h _]

/-- The final component agrees with the items of its glob. -/
theorem agrees_final {isDotless : Bool} {glob : Text} (hg : IsName glob)
    : Agrees (Item.scan isDotless glob) [name isDotless glob] := by
  intro path
  rw [accepts_scan_iff hg]
  rcases Delimiters.isWord_or_closed .separators path
    with hn | ⟨first, separator, rest, rfl, hf, hs⟩
  · have hn : IsName path := hn
    rw [componentsOf_name hn]
    simp [accepts, hn]
  · have crosses : ¬IsName (first ++ separator :: rest) := by
      intro hn
      apply hn.not_mem hs
      simp
    rw [componentsOf_closed hf hs]
    simp [accepts, crosses, componentsOf_ne_nil]

/-- A component that a separator closes agrees with its items and a separator, if something
is asked of what follows.
-/
theorem Agrees.closed {items : List Item} {globs : List ComponentGlob} {isDotless : Bool}
    {glob : Text} (h : Agrees items globs) (hg : IsName glob) (hn : globs ≠ [])
    : Agrees (Item.scan isDotless glob ++ .separator :: items) (name isDotless glob :: globs) := by
  intro path
  simp only [accepts_append_iff, accepts_scan_iff hg, accepts_separator_iff]
  rcases Delimiters.isWord_or_closed .separators path
    with hp | ⟨first, separator, rest, rfl, hf, hs⟩
  · have nothing : accepts globs [] = false := accepts_nil_of_ne_nil hn
    rw [componentsOf_name hp, accepts, nothing, Bool.and_false]
    simp only [Bool.false_eq_true, iff_false]
    intro ha
    obtain ⟨head, _, rfl, -, c, tail, rfl, hc, -⟩ := ha
    apply IsName.not_mem hp hc
    simp
  · rw [componentsOf_closed hf hs, accepts, Bool.and_eq_true, ← h rest]
    constructor
    · intro ha
      obtain ⟨head, _, he, ⟨hh, hm⟩, c, tail, rfl, hc, ht⟩ := ha
      obtain ⟨rfl, -, rfl⟩ := closed_inj hf hh hs hc he
      exact ⟨hm, ht⟩
    · intro ha
      exact ⟨first, _, rfl, ⟨hf, ha.1⟩, separator, rest, rfl, hs, ha.2⟩

end ComponentGlob

end PathGlob
