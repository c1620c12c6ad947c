import DevSpecs.Text.Basic
import DevSpecs.Text.Sorted
import Mathlib.Data.List.Sort

/-!
# Ascending lists

Putting an element into an ascending list leaves it ascending, so the distinct
elements of a list come out in strictly ascending order.  An ascending list is
determined by its members.  For texts and optional texts the order is the usual
one: by the first character that differs, a proper prefix first, and nothing
before any text.
-/

namespace DevSpecs

section Lists

variable {α : Type} [Ord α]

/-- Every element is below all that follow it. -/
def Ascending (xs : List α) : Prop :=
  xs.Pairwise fun x y => compare x y = .lt

variable [Std.TransOrd α] [Std.LawfulEqOrd α]

theorem ascending_insertSorted {ys : List α} (x : α) (h : Ascending ys) :
    Ascending (insertSorted x ys) := by
  induction ys with
  | nil => exact List.pairwise_singleton _ x
  | cons y ys ih =>
      obtain ⟨hbelow, hrest⟩ := List.pairwise_cons.mp h
      rw [insertSorted]
      split
      next hlt =>
        refine List.pairwise_cons.mpr ⟨fun z hz => ?_, h⟩
        rcases List.mem_cons.mp hz with rfl | hz
        · exact hlt
        · exact Std.TransCmp.lt_trans hlt (hbelow z hz)
      next => exact h
      next hgt =>
        refine List.pairwise_cons.mpr ⟨fun z hz => ?_, ih hrest⟩
        rcases mem_insertSorted.mp hz with rfl | hz
        · exact Std.OrientedCmp.lt_of_gt hgt
        · exact hbelow z hz

theorem ascending_sortedDistinct (xs : List α) :
    Ascending (sortedDistinct xs) := by
  induction xs with
  | nil => exact List.Pairwise.nil
  | cons x xs ih => exact ascending_insertSorted x ih

/-- One element is below another when its key is. -/
def KeyBelow {β : Type} (key : β → α) (x y : β) : Prop :=
  compare (key x) (key y) = .lt

instance {β : Type} (key : β → α) : Std.Irrefl (KeyBelow key) where
  irrefl x := by simp [KeyBelow]

instance {β : Type} (key : β → α) : Std.Antisymm (KeyBelow key) where
  antisymm x _ hxy hyx :=
    absurd (Std.TransCmp.lt_trans hxy hyx)
      (Std.Irrefl.irrefl (r := KeyBelow key) x)

/-- Lists whose keys ascend are equal when they have the same members. -/
theorem eq_of_ascending_map {β : Type} (key : β → α) {xs ys : List β}
    (hxs : Ascending (xs.map key)) (hys : Ascending (ys.map key))
    (hmem : ∀ x, x ∈ xs ↔ x ∈ ys) : xs = ys := by
  rw [Ascending, List.pairwise_map] at hxs hys
  exact hxs.eq_of_mem_iff (r := KeyBelow key) hys hmem

theorem eq_of_ascending {xs ys : List α} (hxs : Ascending xs)
    (hys : Ascending ys) (hmem : ∀ x, x ∈ xs ↔ x ∈ ys) : xs = ys :=
  eq_of_ascending_map id (by rwa [List.map_id]) (by rwa [List.map_id]) hmem

end Lists

/-! ## Texts -/

namespace Text

theorem compare_eq_lt_iff {s t : Text} : compare s t = .lt ↔ s < t := by
  induction s generalizing t with
  | nil => cases t <;> simp [List.compare_nil_cons]
  | cons c s ih =>
      cases t with
      | nil => simp
      | cons d t =>
          rw [List.compare_cons_cons, Ordering.then_eq_lt, ih,
            List.cons_lt_cons_iff, Std.LawfulEqOrd.compare_eq_iff_eq]
          exact or_congr_left compareOfLessAndEq_eq_lt

/-- Nothing is below every text. -/
theorem compare_option_eq_lt_iff {s t : Option Text} :
    compare s t = .lt ↔ s < t := by
  cases s <;> cases t
  case some.some s t => exact compare_eq_lt_iff
  all_goals simp [compare]

end Text

end DevSpecs
