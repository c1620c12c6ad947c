import DevSpecs.Version.Range

/-!
# Equality of versions and ranges

Versions are equal when their segments are, so equality is coarser than
equality of texts.  Ranges inherit this equality for their bounds.  Equal
versions, and hence equal ranges and equal lists of ranges, have the same hash.
-/

namespace DevSpecs

section Lifting

variable {α β : Type} [BEq α] {f : α → β}

/-- An equality that compares a feature compares that feature of options. -/
theorem option_beq_iff (h : ∀ {x y : α}, (x == y) = true ↔ f x = f y)
    {a b : Option α} : (a == b) = true ↔ a.map f = b.map f := by
  cases a <;> cases b <;> simp [h]

/-- An equality that compares a feature compares that feature of all elements
of lists. -/
theorem list_beq_iff (h : ∀ {x y : α}, (x == y) = true ↔ f x = f y)
    {xs ys : List α} : (xs == ys) = true ↔ xs.map f = ys.map f := by
  induction xs generalizing ys with
  | nil => cases ys <;> simp
  | cons x xs ih =>
      cases ys with
      | nil => simp
      | cons y ys =>
          rw [List.cons_beq_cons, Bool.and_eq_true, h, ih, List.map_cons,
            List.map_cons, List.cons.injEq]

variable [Hashable α] [LawfulHashable α]

instance lawfulHashable_option : LawfulHashable (Option α) where
  hash_eq a b h := by
    cases a <;> cases b
    case none.none => rfl
    case some.some x y => exact congrArg (mixHash · 13) (hash_eq h)
    all_goals simp at h

instance lawfulHashable_list : LawfulHashable (List α) where
  hash_eq xs ys h := by
    -- The hash of a list is mixed from the left, starting with a fixed value.
    change xs.foldl (fun r a => mixHash r (hash a)) 7 =
      ys.foldl (fun r a => mixHash r (hash a)) 7
    generalize (7 : UInt64) = start
    induction xs generalizing ys start with
    | nil =>
        cases ys with
        | nil => rfl
        | cons y ys => simp at h
    | cons x xs ih =>
        cases ys with
        | nil => simp at h
        | cons y ys =>
            rw [List.cons_beq_cons, Bool.and_eq_true] at h
            rw [List.foldl_cons, List.foldl_cons, hash_eq h.1]
            exact ih ys h.2 _

end Lifting

namespace Version

theorem beq_iff_segments_eq {v w : Version} :
    (v == w) = true ↔ v.segments = w.segments :=
  beq_iff_eq (a := v.segments)

instance : LawfulHashable Version where
  hash_eq v w h := by
    change hash v.segments = hash w.segments
    rw [beq_iff_segments_eq.mp h]

end Version

namespace VersionRange

/-- The segments of both bounds. -/
def segments (r : VersionRange) :
    Option (List Segment) × Option (List Segment) :=
  (r.lower.map Version.segments, r.upper.map Version.segments)

theorem beq_iff_bounds {r s : VersionRange} :
    (r == s) = true ↔
      (r.lower == s.lower) = true ∧ (r.upper == s.upper) = true := by
  change (r.lower == s.lower && r.upper == s.upper) = true ↔ _
  rw [Bool.and_eq_true]

/-- Ranges are equal when the segments of their bounds are. -/
theorem beq_iff_segments_eq {r s : VersionRange} :
    (r == s) = true ↔ r.segments = s.segments := by
  rw [beq_iff_bounds, option_beq_iff Version.beq_iff_segments_eq,
    option_beq_iff Version.beq_iff_segments_eq, segments, segments,
    Prod.mk.injEq]

instance : LawfulHashable VersionRange where
  hash_eq r s h := by
    obtain ⟨hlower, hupper⟩ := beq_iff_bounds.mp h
    change mixHash (mixHash 0 (hash r.lower)) (hash r.upper) =
      mixHash (mixHash 0 (hash s.lower)) (hash s.upper)
    rw [hash_eq hlower, hash_eq hupper]

end VersionRange

end DevSpecs
