/-!
# Sorted lists without repetitions

Sets whose order shows in answers are kept as ascending lists.  Two ascending
lists with the same members are equal, so such a list is a canonical form of
the set it enumerates.
-/

namespace DevSpecs

variable {α : Type _} [Ord α]

/-- Put `x` into an ascending list unless an equal element is there. -/
def insertSorted (x : α) : List α → List α
  | [] => [x]
  | y :: ys =>
    match compare x y with
    | .lt => x :: y :: ys
    | .eq => y :: ys
    | .gt => y :: insertSorted x ys

/-- The distinct elements of a list in ascending order. -/
def sortedDistinct (xs : List α) : List α :=
  xs.foldr insertSorted []

/-- Put `x` into a list sorted by `compare`, after the elements equal to it. -/
def insertStable (x : α) : List α → List α
  | [] => [x]
  | y :: ys =>
    match compare x y with
    | .lt => x :: y :: ys
    | _ => y :: insertStable x ys

/-- The elements of a list in ascending order, equal ones in their old order. -/
def sortStable (xs : List α) : List α :=
  xs.foldl (fun sorted x => insertStable x sorted) []

/-- The greatest element of a list by `compare`, the last one of several. -/
def maxLast? : List α → Option α
  | [] => none
  | x :: xs => some (xs.foldl (fun best y => if (compare best y).isLE then y else best) x)

/-- The least element of a list by `compare`, the first one of several. -/
def minFirst? : List α → Option α
  | [] => none
  | x :: xs => some (xs.foldl (fun best y => if (compare best y).isLE then best else y) x)

theorem mem_of_maxLast? {x : α} {xs : List α} (h : maxLast? xs = some x) :
    x ∈ xs := by
  -- The fold keeps its start or picks one of the elements it passes.
  have hfold : ∀ (ys : List α) (start : α),
      ys.foldl (fun best y => if (compare best y).isLE then y else best) start ∈
        start :: ys := by
    intro ys
    induction ys with
    | nil => simp
    | cons y ys ih =>
      intro start
      have := ih (if (compare start y).isLE then y else start)
      grind
  cases xs with
  | nil => simp [maxLast?] at h
  | cons y ys => exact Option.some.inj h ▸ hfold ys y

theorem maxLast?_eq_none_iff {xs : List α} : maxLast? xs = none ↔ xs = [] := by
  cases xs <;> simp [maxLast?]

/-- Both of two elements are at most the one that `maxLast?` keeps of them. -/
theorem isLE_later [Std.TransOrd α] (x y : α) :
    (compare x (if (compare x y).isLE then y else x)).isLE = true ∧
      (compare y (if (compare x y).isLE then y else x)).isLE = true := by
  by_cases hle : (compare x y).isLE = true
  · rw [if_pos hle]
    exact ⟨hle, Std.ReflOrd.isLE_rfl⟩
  · rw [if_neg hle]
    have hgt : compare x y = .gt := by simpa using hle
    have hlt : compare y x = .lt := Std.OrientedOrd.eq_swap.trans (congrArg _ hgt)
    exact ⟨Std.ReflOrd.isLE_rfl, hlt ▸ rfl⟩

/-- No element of a list comes after the greatest one. -/
theorem isLE_of_maxLast? [Std.TransOrd α] {x y : α} {xs : List α}
    (h : maxLast? xs = some x) (hy : y ∈ xs) : (compare y x).isLE = true := by
  -- The fold goes below neither its start nor an element that it passes.
  have hfold : ∀ (ys : List α) (start : α), ∀ z ∈ start :: ys,
      (compare z (ys.foldl (fun best y => if (compare best y).isLE then y else best)
        start)).isLE = true := by
    intro ys
    induction ys with
    | nil => simp
    | cons y ys ih =>
      intro start z hz
      obtain ⟨hstart, hpassed⟩ := isLE_later start y
      have hend := ih (if (compare start y).isLE then y else start)
      have hkept := hend _ List.mem_cons_self
      rw [List.mem_cons, List.mem_cons] at hz
      rcases hz with rfl | rfl | hz
      · exact Std.TransOrd.isLE_trans hstart hkept
      · exact Std.TransOrd.isLE_trans hpassed hkept
      · exact hend z (List.mem_cons_of_mem _ hz)
  cases xs with
  | nil => simp [maxLast?] at h
  | cons z zs => exact Option.some.inj h ▸ hfold zs z y hy

section Lemmas

variable [Std.LawfulEqOrd α]

theorem mem_insertSorted {x y : α} {ys : List α} :
    x ∈ insertSorted y ys ↔ x = y ∨ x ∈ ys := by
  induction ys with
  | nil => simp [insertSorted]
  | cons z zs ih =>
    simp only [insertSorted]
    split
    · simp
    · next h =>
      have := Std.LawfulEqOrd.eq_of_compare h
      simp [this]
    · simp only [List.mem_cons, ih]
      grind

theorem mem_sortedDistinct {x : α} {xs : List α} :
    x ∈ sortedDistinct xs ↔ x ∈ xs := by
  induction xs with
  | nil => simp [sortedDistinct]
  | cons y ys ih =>
    rw [sortedDistinct, List.foldr_cons, mem_insertSorted, List.mem_cons]
    exact or_congr_right ih

end Lemmas

end DevSpecs
