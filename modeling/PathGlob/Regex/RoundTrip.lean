import PathGlob.Regex.Reader

/-! Reading undoes writing: the regular expression read from a written form is the one that
was written. No character of a literal can be taken for what marks a term.
-/

namespace PathGlob

namespace CharSet

/-- A written character begins with a backslash or with a character that is not special. -/
theorem exists_escape_eq_cons (special : List Char) (c : Char)
    : ∃ d rest, escape special c = d :: rest ∧ (d = '\\' ∨ d ∉ special) := by
  by_cases hc : c ∈ special
  · exact ⟨'\\', [c], by simp [escape, hc]⟩
  · exact ⟨c, [], by simp [escape, hc]⟩

/-- Reading undoes the writing of a character, given that a backslash is special. -/
theorem readChar?_escape {special : List Char} (hs : '\\' ∈ special) (c : Char) (rest : Text)
    : readChar? special (escape special c ++ rest) = some (c, rest) := by
  by_cases hc : c ∈ special
  · simp [escape, readChar?, hc]
  · have hn : c ≠ '\\' := fun h => hc (h ▸ hs)
    simp only [escape, List.contains_iff_mem, hc, if_false, List.singleton_append]
    unfold readChar?
    split <;> simp_all

/-- Reading undoes the writing of members, by induction on the members. -/
theorem readMembers?_flatMap_escape (read members rest : Text)
    : readMembers? read (members.flatMap (escape bracketMetas) ++ ']' :: rest) =
        some (read.reverse ++ members, rest) := by
  induction members generalizing read with
  | nil =>
      have hc : readChar? bracketMetas (']' :: rest) = none := by simp [readChar?, bracketMetas]
      unfold readMembers?
      split <;> simp_all [Text.after?]
  | cons c members ih =>
      have hc := @readChar?_escape bracketMetas (by decide) c
        (members.flatMap (escape bracketMetas) ++ ']' :: rest)
      unfold readMembers?
      rw [List.flatMap_cons, List.append_assoc]
      split <;> simp_all

/-- Written members never begin as a set of unlisted ones does. -/
theorem flatMap_escape_ne_cons (members rest tail : Text)
    : members.flatMap (escape bracketMetas) ++ ']' :: rest ≠ '^' :: tail := by
  cases members with
  | nil => simp
  | cons c members =>
      obtain ⟨d, _, he, hd⟩ := exists_escape_eq_cons bracketMetas c
      have hn : d ≠ '^' := by rintro rfl; revert hd; decide
      simp [he, hn]

/-- Reading undoes the writing of a set, by the kind of set. -/
theorem read?_text (set : CharSet) (rest : Text)
    : read? (set.text ++ rest) = some (set, rest) := by
  cases set with
  | only c =>
      obtain ⟨d, tail, he, hd⟩ := exists_escape_eq_cons metas c
      have h := @readChar?_escape metas (by decide) c rest
      have hn : d ≠ '[' := by rintro rfl; revert hd; decide
      rw [text]
      rw [he] at h ⊢
      unfold read?
      split <;> simp_all
  | listed members =>
      have h := readMembers?_flatMap_escape [] members rest
      have hn := flatMap_escape_ne_cons members rest
      simp only [text, List.cons_append, List.append_assoc, List.nil_append]
      unfold read?
      split <;> simp_all
  | unlisted members => simp [text, read?, readMembers?_flatMap_escape]

/-- A written set begins with none of the marks that open, repeat or anchor. -/
theorem exists_text_eq_cons (set : CharSet)
    : ∃ c rest, set.text = c :: rest ∧ c ∉ ['*', '^', '('] := by
  cases set with
  | only c =>
      obtain ⟨d, tail, he, hd⟩ := exists_escape_eq_cons metas c
      refine ⟨d, tail, he, fun h => ?_⟩
      simp only [List.mem_cons, List.not_mem_nil, or_false] at h
      rcases h with rfl | rfl | rfl <;> revert hd <;> decide
  | listed members => exact ⟨'[', _, rfl, by decide⟩
  | unlisted members => exact ⟨'[', _, rfl, by decide⟩

/-- A written set does not begin as a loop does. -/
theorem after?_text_append (set : CharSet) (beginning rest : Text)
    : Text.after? ('(' :: beginning) (set.text ++ rest) = none := by
  obtain ⟨c, tail, he, hc⟩ := set.exists_text_eq_cons
  have hn : '(' ≠ c := by rintro rfl; revert hc; decide
  simp [he, Text.after?, hn]

end CharSet

namespace Term

/-- A written term begins with none of the marks that repeat or anchor. -/
theorem exists_text_eq_cons (term : Term)
    : ∃ c rest, term.text = c :: rest ∧ c ∉ ['*', '^'] := by
  cases term with
  | one set =>
      obtain ⟨c, rest, h, hc⟩ := set.exists_text_eq_cons
      exact ⟨c, rest, h, by simp_all⟩
  | many set =>
      obtain ⟨c, rest, h, hc⟩ := set.exists_text_eq_cons
      exact ⟨c, rest ++ ['*'], by simp [text, h], by simp_all⟩
  | loop inner closing => exact ⟨'(', _, rfl, by decide⟩

/-- Reading undoes the writing of a term that no asterisk follows. -/
theorem read?_text (term : Term) {rest : Text} (h : rest.head? ≠ some '*')
    : read? (term.text ++ rest) = some (term, rest) := by
  cases term with
  | one set =>
      simp only [text, read?, CharSet.after?_text_append, CharSet.read?_text,
        Option.bind_eq_bind, Option.bind_some]
      split <;> simp_all
  | many set => simp [text, read?, CharSet.after?_text_append, CharSet.read?_text]
  | loop inner closing => simp [text, read?, Text.after?, CharSet.read?_text]

/-- Written terms do not begin with an asterisk, unless what follows them does. -/
theorem head?_flatMap_text (terms : List Term) {rest : Text} (h : rest.head? ≠ some '*')
    : (terms.flatMap text ++ rest).head? ≠ some '*' := by
  cases terms with
  | nil => exact h
  | cons term terms =>
      obtain ⟨c, _, he, hc⟩ := term.exists_text_eq_cons
      simp_all

/-- Reading undoes the writing of terms up to where no term begins, by induction on them. -/
theorem readMany_flatMap_text (read terms : List Term) {rest : Text}
    (h : rest.head? ≠ some '*') (hr : read? rest = none)
    : readMany read (terms.flatMap text ++ rest) = (read.reverse ++ terms, rest) := by
  induction terms generalizing read with
  | nil =>
      unfold readMany
      split <;> simp_all
  | cons term terms ih =>
      have ht := read?_text term (head?_flatMap_text terms h)
      unfold readMany
      rw [List.flatMap_cons, List.append_assoc]
      split <;> simp_all

end Term

namespace Regex

/-- Reading undoes the writing of what lies between the anchors. -/
theorem readBody?_body (regex : Regex)
    : readBody? regex.anchored (regex.body (if regex.anchored then ['$'] else [])) =
        some regex := by
  have ho (rest : Text) : Term.read? (stemOpening ++ rest) = none := by
    simp [Term.read?, stemOpening, Text.after?, CharSet.read?, CharSet.readChar?, CharSet.metas]
  have hc (rest : Text) : Term.read? (')' :: rest) = none := by
    simp [Term.read?, Text.after?, CharSet.read?, CharSet.readChar?, CharSet.metas]
  rw [readBody?, body, Term.readMany_flatMap_text _ _ (by simp [stemOpening]) (ho _)]
  dsimp only
  rw [Text.after?_eq_some_iff.mpr rfl, Option.bind_eq_bind, Option.bind_some,
    Term.readMany_flatMap_text _ _ (by simp) (hc _)]
  obtain ⟨anchored, lead, stem⟩ := regex
  cases anchored <;> rfl

/-- What lies between the anchors does not begin with an anchor. -/
theorem body_ne_cons (regex : Regex) (ending tail : Text)
    : regex.body ending ≠ '^' :: tail := by
  cases h : regex.lead with
  | nil => simp [body, h, stemOpening]
  | cons term lead =>
      obtain ⟨c, _, he, hc⟩ := term.exists_text_eq_cons
      simp_all [body]

/-- Reading undoes writing. -/
@[simp]
theorem read?_text (regex : Regex)
    : read? regex.text = some regex := by
  have hb := regex.readBody?_body
  have hn := regex.body_ne_cons []
  cases ha : regex.anchored with
  | true => simpa [text, read?, ha] using hb
  | false =>
      simp only [text, ha]
      unfold read?
      split <;> simp_all

end Regex

end PathGlob
