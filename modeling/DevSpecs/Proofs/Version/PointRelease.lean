import DevSpecs.Proofs.Version.Runs
import DevSpecs.Proofs.Version.Walk

/-!
# Point releases

A version followed by a separator and another version is a point release of it:
its segments are those of the first and then those of the second.  Whatever the
second version is, the point release comes after its base, and before every
greater version that is no point release of the same base.  Upper bounds are
literal, so a range that ends at the base contains none of its point releases.
-/

namespace DevSpecs

/-! ## Lists with a common start -/

section Lists

variable {α : Type} [Ord α] [Std.LawfulEqOrd α]

theorem compare_append_left (xs ys zs : List α) :
    compare (xs ++ ys) (xs ++ zs) = compare ys zs := by
  induction xs with
  | nil => rfl
  | cons x xs ih =>
      have hself : compare x x = .eq := Std.ReflCmp.compare_self
      rw [List.cons_append, List.cons_append, List.compare_cons_cons, hself,
        Ordering.eq_then, ih]

/-- A list stays below a greater one that does not start with it, whatever is
appended. -/
theorem compare_append_eq_lt {xs zs : List α} (h : compare xs zs = .lt)
    (hstart : ¬xs <+: zs) (ys : List α) : compare (xs ++ ys) zs = .lt := by
  induction xs generalizing zs with
  | nil => exact absurd (List.nil_prefix (l := zs)) hstart
  | cons x xs ih =>
      cases zs with
      | nil => simp at h
      | cons z zs =>
          rw [List.compare_cons_cons, Ordering.then_eq_lt] at h
          rw [List.cons_append, List.compare_cons_cons, Ordering.then_eq_lt]
          rcases h with hbelow | ⟨heq, hrest⟩
          · exact Or.inl hbelow
          · refine Or.inr ⟨heq, ih hrest fun hprefix => hstart ?_⟩
            obtain rfl : x = z := Std.LawfulEqOrd.eq_of_compare heq
            exact List.cons_prefix_cons.mpr ⟨rfl, hprefix⟩

end Lists

namespace Version

variable {a w p : Version} {c : Char}

/-! ## The point release as a version -/

/-- A separator between two versions makes one version of them. -/
theorem exists_text_eq_append (a w : Version) (hc : isSeparator c = true) :
    ∃ p : Version, p.text = a.text ++ c :: w.text := by
  apply exists_text_eq
  · intro d hd
    rw [List.mem_append, List.mem_cons] at hd
    rcases hd with hd | rfl | hd
    · exact forall_isAllowed a d hd
    · exact isAllowed_of_isSeparator hc
    · exact forall_isAllowed w d hd
  · obtain ⟨d, hd, halphanumeric⟩ := List.any_eq_true.mp a.nonempty
    exact ⟨d, List.mem_append_left _ hd, halphanumeric⟩

/-! ## Order -/

section Order

variable (hsegments : p.segments = a.segments ++ w.segments)

include hsegments

theorem lt_of_segments_eq_append : a < p := by
  obtain ⟨s, rest, hcons⟩ := List.exists_cons_of_ne_nil w.segments_ne_nil
  rw [lt_iff_compare_eq_lt, compare_eq, hsegments]
  calc
    compare a.segments (a.segments ++ w.segments)
      = compare (a.segments ++ []) (a.segments ++ w.segments) := by
        rw [List.append_nil]
    _ = compare [] w.segments := compare_append_left _ _ _
    _ = .lt := by
        rw [hcons]
        exact List.compare_nil_cons

theorem lt_of_segments_not_prefix {b : Version} (hab : a < b)
    (hstart : ¬a.segments <+: b.segments) : p < b := by
  rw [lt_iff_compare_eq_lt, compare_eq] at hab ⊢
  rw [hsegments]
  exact compare_append_eq_lt hab hstart w.segments

end Order

/-- A range that ends at a version contains nothing above it. -/
theorem contains_eq_false_of_upper {r : VersionRange} {upper : Version}
    (hupper : r.upper = some upper) (hbelow : upper < p) :
    r.contains p = false := by
  have hreach : r.reaches p = false :=
    VersionRange.reaches_eq_false_iff.mpr ⟨upper, hupper, hbelow⟩
  rw [← Bool.not_eq_true, VersionRange.contains_iff, hreach]
  simp

/-- A version with a separator and any other version behind it is a version.  It
comes after the first, before every greater version that does not start with the
segments of the first, and lies in no range that ends at the first. -/
theorem pointRelease_directly_above (a w : Version) (hc : isSeparator c = true) :
    ∃ p, ofText? (a.text ++ c :: w.text) = some p ∧ a < p ∧
      (∀ b, a < b → ¬a.segments <+: b.segments → p < b) ∧
      ∀ r : VersionRange, (∃ upper ∈ r.upper, (upper == a) = true) →
        r.contains p = false := by
  obtain ⟨p, htext⟩ := exists_text_eq_append a w hc
  have hsegments : p.segments = a.segments ++ w.segments := by
    rw [segments, htext, segmentsOf_append_separator a.text hc w.text]
    rfl
  have habove : a < p := lt_of_segments_eq_append hsegments
  refine ⟨p, htext ▸ ofText?_text p, habove, ?_, ?_⟩
  · intro b hab hstart
    exact lt_of_segments_not_prefix hsegments hab hstart
  · rintro r ⟨upper, hupper, heq⟩
    have hle : upper ≤ a := (Std.beq_iff_le_and_ge.mp heq).1
    exact contains_eq_false_of_upper hupper (Std.lt_of_le_of_lt hle habove)

/-- Separators beside the new one do not matter, and a word, which is below every
number, is still above its base. -/
theorem pointRelease_directly_above_word :
    ∃ a w p b : Version, a.text = "_3.26-".toList ∧ w.text = ".rc1".toList ∧
      b.text = "3.27alpha".toList ∧ isSeparator '_' = true ∧
      ofText? "_3.26-_.rc1" = some p ∧ a < p ∧ p < b ∧
      ∀ lower, VersionRange.contains ⟨lower, some a⟩ p = false := by
  let a : Version := ⟨"_3.26-", by decide, by decide⟩
  let w : Version := ⟨".rc1", by decide, by decide⟩
  let b : Version := ⟨"3.27alpha", by decide, by decide⟩
  have hc : isSeparator '_' = true := rfl
  have hab : a < b := by decide +kernel
  have hstart : ¬a.segments <+: b.segments := by decide +kernel
  obtain ⟨p, hp, habove, hbelow, hrange⟩ := pointRelease_directly_above a w hc
  refine ⟨a, w, p, b, rfl, rfl, rfl, hc, hp, habove, hbelow b hab hstart, ?_⟩
  intro lower
  exact hrange ⟨lower, some a⟩ ⟨a, rfl, by decide +kernel⟩

end Version

end DevSpecs
