import DevSpecs.Proofs.Version.Equality

/-!
# The order of versions

Segments are linearly ordered and versions are linearly preordered.  Two
versions compare as equal exactly when their segments are the same, which is
weaker than equality of their texts.  The instances below make the lemmas of
the standard library about preorders available for versions.  The main
statement collects what range membership, greatest versions and the removal of
duplicates rely on.
-/

namespace DevSpecs

/-! ## Segments -/

namespace Segment

/-- The place of a segment's kind: words, then numbers, then branches. -/
def kind : Segment → Nat
  | word _ => 0
  | number _ => 1
  | branch _ => 2

/-- The letters of a word; other segments have none. -/
def letters : Segment → Text
  | word ls => ls
  | number _ => []
  | branch _ => []

/-- The value of a number, or the place of a branch among the branches. -/
def value : Segment → Nat
  | word _ => 0
  | number n => n
  | branch b => b.ctorIdx

/-- Segments are compared by kind, then by letters, then by value. -/
theorem compare_eq_compareLex :
    (compare : Segment → Segment → Ordering) =
      compareLex (compareOn kind)
        (compareLex (compareOn letters) (compareOn value)) := by
  funext a b
  cases a <;> cases b
  -- The derived order ends a comparison of two fields with `then .eq`.
  case number.number => exact Ordering.then_eq
  case branch.branch => exact Ordering.then_eq
  all_goals rfl

/-- A segment is determined by its kind, its letters and its value. -/
theorem ext_of_kind {a b : Segment}
    (hkind : a.kind = b.kind) (hletters : a.letters = b.letters)
    (hvalue : a.value = b.value) : a = b := by
  cases a <;> cases b <;> simp_all [kind, letters, value]
  rename_i a b
  cases a <;> cases b <;> simp_all [Branch.ctorIdx]

instance : Std.TransOrd Segment := by
  rw [Std.TransOrd, compare_eq_compareLex]
  infer_instance

instance : Std.LawfulEqOrd Segment where
  eq_of_compare {a b} h := by
    rw [compare_eq_compareLex] at h
    simp only [compareLex, compareOn, Ordering.then_eq_eq,
      Std.LawfulEqOrd.compare_eq_iff_eq] at h
    obtain ⟨hkind, hletters, hvalue⟩ := h
    exact ext_of_kind hkind hletters hvalue

end Segment

/-! ## Versions -/

namespace Version

theorem compare_eq (a b : Version) :
    compare a b = compare a.segments b.segments :=
  rfl

instance : Std.TransOrd Version where
  eq_swap := Std.OrientedOrd.eq_swap (α := List Segment)
  isLE_trans := Std.TransOrd.isLE_trans (α := List Segment)

instance : Std.LawfulOrderOrd Version where
  isLE_compare _ _ := Iff.rfl
  isGE_compare _ _ := Std.OrientedCmp.isGE_iff_isLE

instance : Std.IsLinearPreorder Version :=
  Std.IsLinearPreorder.of_ord

instance : Std.LawfulOrderLT Version :=
  Std.LawfulOrderLT.of_ord Version fun _ _ => Iff.rfl

/-- Versions are equal exactly when they compare as equal. -/
theorem beq_iff_compare_eq {a b : Version} :
    (a == b) = true ↔ compare a b = .eq := by
  rw [compare_eq, Std.LawfulEqOrd.compare_eq_iff_eq]
  exact beq_iff_eq (a := a.segments)

instance : Std.LawfulOrderBEq Version :=
  Std.LawfulOrderBEq.of_ord Version fun _ _ => beq_iff_compare_eq

theorem lt_iff_compare_eq_lt {a b : Version} : a < b ↔ compare a b = .lt :=
  Iff.rfl

/-- Of three ways in which two versions can be related, exactly one holds. -/
theorem lt_or_beq_or_gt (a b : Version) :
    (a < b ∧ ¬(a == b) = true ∧ ¬b < a) ∨
      (¬a < b ∧ (a == b) = true ∧ ¬b < a) ∨
        (¬a < b ∧ ¬(a == b) = true ∧ b < a) := by
  have hswap : compare b a = (compare a b).swap := Std.OrientedOrd.eq_swap
  rw [beq_iff_compare_eq, lt_iff_compare_eq_lt, lt_iff_compare_eq_lt, hswap]
  cases compare a b <;> simp

/-- Comparison is a total order up to equality: exactly one of two versions is
below the other unless they are equal, comparing the other way round gives the
opposite result, the order is transitive, and to compare as equal is to be
equal.  Equal versions have the same segments, of which their hash is made. -/
theorem total_order_up_to_equality (a b c : Version) :
    ((a < b ∧ ¬(a == b) = true ∧ ¬b < a) ∨
      (¬a < b ∧ (a == b) = true ∧ ¬b < a) ∨
        (¬a < b ∧ ¬(a == b) = true ∧ b < a)) ∧
      compare a b = (compare b a).swap ∧
      (a ≤ b → b ≤ c → a ≤ c) ∧
      (compare a b = .eq ↔ (a == b) = true) ∧
      ((a == b) = true → a.segments = b.segments ∧ hash a = hash b) := by
  refine ⟨lt_or_beq_or_gt a b, Std.OrientedOrd.eq_swap, ?_,
    beq_iff_compare_eq.symm, ?_⟩
  · intro hab hbc
    exact Std.le_trans hab hbc
  · intro heq
    exact ⟨beq_iff_segments_eq.mp heq, hash_eq heq⟩

end Version

end DevSpecs
