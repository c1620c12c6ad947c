import DevSpecs.Spec.Parse
import DevSpecs.Proofs.Outcomes
import DevSpecs.Proofs.Spec.Pieces
import DevSpecs.Proofs.Text.Cutting

/-!
# Items of a version token

A range as it is written, and a version alone, are read back as the range and
as the range of exactly that version.  Items joined by commas are read one by
one, so a list of items is read back as the list of their ranges.
-/

namespace DevSpecs

namespace Version

theorem parse_text (v : Version) : parse v.text = .ok v := by
  rw [parse, ofText?, dif_pos v.allowed, dif_pos v.nonempty]

theorem isTokenChar_of_mem_text {v : Version} {c : Char} (h : c ∈ v.text) :
    Spec.isTokenChar c = true := by
  have hseparators : ∀ c ∈ ".-_".toList, Spec.isTokenChar c = true := by
    simp [Spec.isTokenChar]
  have hc := List.all_eq_true.mp v.allowed c h
  rw [Bool.or_eq_true, List.contains_iff_mem] at hc
  rcases hc with hc | hc
  · simp [Spec.isTokenChar, hc]
  · exact hseparators c hc

/-- The punctuation of a token does not occur in versions. -/
theorem not_mem_text {v : Version} {c : Char} (hc : c ∈ [':', ',', '=']) :
    c ∉ v.text := by
  have hpunctuation : ∀ c ∈ [':', ',', '='],
      (Text.isAlphanumeric c || ".-_".toList.contains c) = false := by
    simp only [List.mem_cons, List.not_mem_nil, or_false]
    rintro c (rfl | rfl | rfl) <;> rfl
  intro hmem
  have hallowed := List.all_eq_true.mp v.allowed c hmem
  rw [hpunctuation c hc] at hallowed
  exact Bool.false_ne_true hallowed

theorem text_ne_nil (v : Version) : v.text ≠ [] := by
  intro h
  have hnonempty := v.nonempty
  simp [h] at hnonempty

end Version

namespace Spec

open Text

/-! ## Single items -/

/-- A text of token characters is trimmed already. -/
theorem trim_of_isTokenChar {t : Text} (h : ∀ c ∈ t, isTokenChar c = true) :
    Text.trim t = t := by
  by_cases hne : t = []
  · rw [hne]
    rfl
  · exact trim_of_isWord ⟨hne, fun c hc => isBlank_of_isTokenChar (h c hc)⟩

theorem boundOf_of_ne_nil {t : Text} (h : Text.trim t ≠ []) :
    boundOf t = (Version.parse (Text.trim t)).map some := by
  rw [boundOf]
  split
  · contradiction
  · rfl

theorem boundOf_text (bound : Option Version) :
    boundOf ((bound.map Version.text).getD []) = .ok bound := by
  cases bound with
  | none => rfl
  | some v =>
      have htrim : Text.trim v.text = v.text :=
        trim_of_isTokenChar fun _ => Version.isTokenChar_of_mem_text
      have hbound := boundOf_of_ne_nil (htrim.symm ▸ v.text_ne_nil)
      rw [htrim, Version.parse_text] at hbound
      exact hbound

/-- The bounds of an item with one colon are read apart. -/
theorem rangeOf_bounds {spec lower upper : Text} (hlower : ':' ∉ lower)
    (hupper : ':' ∉ upper) :
    rangeOf spec (lower ++ ':' :: upper) =
      (do
        let lower ← boundOf lower
        let upper ← boundOf upper
        return ⟨lower, upper⟩) := by
  have hne : (lower ++ ':' :: upper).isEmpty = false := by simp
  have hone : upper.contains ':' = false := by simpa using hupper
  rw [rangeOf, hne, if_neg Bool.false_ne_true, cutAt_append hlower]
  simp only [hone, if_neg Bool.false_ne_true]

theorem rangeOf_single {spec item : Text} (hne : item ≠ [])
    (hcolon : ':' ∉ item) :
    rangeOf spec item =
      (Version.parse ((Text.dropStart? ['='] item).getD item)).map
        .exactly := by
  rw [rangeOf, if_neg (by simpa using hne), cutAt_eq_none_iff.mpr hcolon]

/-- A range is read back from the way it is written. -/
theorem rangeOf_text (spec : Text) (r : VersionRange) :
    rangeOf spec r.text = .ok r := by
  have hcolon : ∀ bound : Option Version,
      ':' ∉ (bound.map Version.text).getD [] := by
    intro bound
    cases bound with
    | none => simp
    | some v => exact Version.not_mem_text (by simp)
  rw [VersionRange.text, rangeOf_bounds (hcolon r.lower) (hcolon r.upper),
    boundOf_text, boundOf_text]
  rfl

/-- A version alone stands for exactly that version. -/
theorem rangeOf_version (spec : Text) (v : Version) :
    rangeOf spec v.text = .ok (.exactly v) := by
  have hequals : Text.dropStart? ['='] v.text = none := by
    obtain ⟨c, rest, hcons⟩ := List.exists_cons_of_ne_nil v.text_ne_nil
    have hc : '=' ≠ c := by
      rintro rfl
      exact Version.not_mem_text (c := '=') (v := v) (by simp) (by simp [hcons])
    rw [hcons, Text.dropStart?, if_neg hc]
  rw [rangeOf_single v.text_ne_nil (Version.not_mem_text (by simp)), hequals,
    Option.getD_none, Version.parse_text]
  rfl

/-! ## Lists of items -/

/-- An item of a version token with the range that it stands for. -/
structure Item where
  text : Text
  range : VersionRange
  isTokenChar : ∀ c ∈ text, isTokenChar c = true
  no_comma : ',' ∉ text
  reads : ∀ spec, rangeOf spec text = .ok range

namespace Item

/-- A version alone. -/
def ofVersion (v : Version) : Item where
  text := v.text
  range := .exactly v
  isTokenChar _ := Version.isTokenChar_of_mem_text
  no_comma := Version.not_mem_text (by simp)
  reads spec := rangeOf_version spec v

theorem mem_range_text {r : VersionRange} {c : Char} (h : c ∈ r.text) :
    c = ':' ∨ ∃ v : Version, c ∈ v.text := by
  have hbound : ∀ bound : Option Version,
      c ∈ (bound.map Version.text).getD [] → ∃ v : Version, c ∈ v.text := by
    intro bound hc
    cases bound with
    | none => simp at hc
    | some v => exact ⟨v, hc⟩
  rw [VersionRange.text, List.mem_append, List.mem_cons] at h
  rcases h with h | rfl | h
  · exact Or.inr (hbound _ h)
  · exact Or.inl rfl
  · exact Or.inr (hbound _ h)

/-- A range as it is written. -/
def ofRange (r : VersionRange) : Item where
  text := r.text
  range := r
  isTokenChar c h := by
    rcases mem_range_text h with rfl | ⟨v, hv⟩
    · decide
    · exact Version.isTokenChar_of_mem_text hv
  no_comma h := by
    rcases mem_range_text h with h | ⟨v, hv⟩
    · contradiction
    · exact Version.not_mem_text (by simp) hv
  reads spec := rangeOf_text spec r

theorem text_ne_nil (item : Item) : item.text ≠ [] := by
  intro h
  have hreads := item.reads []
  simp [h, rangeOf] at hreads

/-- Items as the list of a token. -/
def listText (items : List Item) : Text :=
  [','].intercalate (items.map Item.text)

theorem isTokenChar_of_mem_listText {items : List Item} {c : Char}
    (h : c ∈ listText items) : Spec.isTokenChar c = true := by
  induction items with
  | nil => simp [listText] at h
  | cons item items ih =>
      by_cases hitems : items = []
      · subst hitems
        exact item.isTokenChar c (by simpa [listText, List.intercalate] using h)
      · have hne : items.map Item.text ≠ [] := by simpa using hitems
        rw [listText, List.map_cons, List.intercalate_cons_of_ne_nil hne,
          List.mem_append, List.mem_append] at h
        rcases h with (h | h) | h
        · exact item.isTokenChar c h
        · obtain rfl := List.mem_singleton.mp h
          decide
        · exact ih h

/-- The characters of a token are not blank and start no node. -/
theorem of_mem_token {items : List Item} {c : Char}
    (h : c ∈ '@' :: listText items) :
    isBlank c = false ∧ startsNode c = false := by
  rcases List.mem_cons.mp h with rfl | h
  · decide
  · have htoken := isTokenChar_of_mem_listText h
    exact ⟨isBlank_of_isTokenChar htoken, startsNode_of_isTokenChar htoken⟩

theorem listText_ne_nil {items : List Item} (h : items ≠ []) :
    listText items ≠ [] := by
  obtain ⟨item, items, rfl⟩ := List.exists_cons_of_ne_nil h
  by_cases hitems : items = []
  · subst hitems
    simpa [listText, List.intercalate] using item.text_ne_nil
  · have hne : items.map Item.text ≠ [] := by simpa using hitems
    rw [listText, List.map_cons, List.intercalate_cons_of_ne_nil hne]
    simp

/-- A list of items is read back as the list of their ranges. -/
theorem rangesOf_listText (spec : Text) {items : List Item} (h : items ≠ []) :
    rangesOf spec (listText items) = .ok (items.map Item.range) := by
  have hsplit : (listText items).splitOn ',' = items.map Item.text := by
    refine List.splitOn_intercalate ',' ?_ (by simpa using h)
    intro text htext
    obtain ⟨item, _, rfl⟩ := List.mem_map.mp htext
    exact item.no_comma
  rw [rangesOf, hsplit, mapM_eq_ok_iff, List.map_map, List.map_map]
  refine List.map_congr_left fun item _ => ?_
  simp only [Function.comp_apply, trim_of_isTokenChar item.isTokenChar]
  exact item.reads spec

end Item

/-- A token that can be read declares at least one range. -/
theorem rangesOf_ne_nil {spec list : Text} {ranges : List VersionRange}
    (h : rangesOf spec list = .ok ranges) : ranges ≠ [] := by
  have hlength := congrArg List.length (mapM_eq_ok_iff.mp h)
  rw [List.length_map, List.length_map] at hlength
  intro hranges
  rw [hranges, List.length_nil, List.length_eq_zero_iff] at hlength
  exact List.splitOn_ne_nil ',' list hlength

end Spec
end DevSpecs
