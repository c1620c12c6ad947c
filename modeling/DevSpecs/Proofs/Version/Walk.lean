import DevSpecs.Proofs.Version.Order
import DevSpecs.Version.Range

/-!
# The walk along ranges

The walk visits ranges while they start by the limit.  It answers the limit if
a visited range reaches it, and the upper bound of the last visited range
otherwise.  The main statement says that on ascending ranges the walk finds the
greatest version up to the limit that any range contains.
-/

namespace DevSpecs
namespace VersionRange

/-! ## Bounds -/

/-- The range starts at or below `v`. -/
def startsBy (v : Version) (r : VersionRange) : Bool :=
  r.lower.all fun lower => decide (lower ≤ v)

/-- The range ends at or above `v`. -/
def reaches (v : Version) (r : VersionRange) : Bool :=
  r.upper.all fun upper => decide (v ≤ upper)

/-- The lower bound lies above the upper one, so that no version is inside. -/
def Inverted (r : VersionRange) : Prop :=
  ∃ lower ∈ r.lower, ∃ upper ∈ r.upper, upper < lower

/-- The order of lower bounds; a missing one is below every version. -/
def LowerLE : Option Version → Option Version → Prop
  | none, _ => True
  | some _, none => False
  | some a, some b => a ≤ b

/-- The order of upper bounds; a missing one is above every version. -/
def UpperLE : Option Version → Option Version → Prop
  | _, none => True
  | none, some _ => False
  | some a, some b => a ≤ b

instance (a b : Option Version) : Decidable (LowerLE a b) :=
  match a, b with
  | none, _ => .isTrue trivial
  | some _, none => .isFalse id
  | some a, some b => inferInstanceAs (Decidable (a ≤ b))

instance (a b : Option Version) : Decidable (UpperLE a b) :=
  match a, b with
  | _, none => .isTrue trivial
  | none, some _ => .isFalse id
  | some a, some b => inferInstanceAs (Decidable (a ≤ b))

instance (r : VersionRange) : Decidable r.Inverted :=
  inferInstanceAs (Decidable (∃ lower ∈ r.lower, ∃ upper ∈ r.upper, _))

theorem startsBy_iff {v : Version} {r : VersionRange} :
    r.startsBy v = true ↔ ∀ lower ∈ r.lower, lower ≤ v := by
  cases h : r.lower with
  | none => simp [startsBy, h]
  | some lower => simp [startsBy, h]

theorem reaches_iff {v : Version} {r : VersionRange} :
    r.reaches v = true ↔ ∀ upper ∈ r.upper, v ≤ upper := by
  cases h : r.upper with
  | none => simp [reaches, h]
  | some upper => simp [reaches, h]

theorem contains_iff {v : Version} {r : VersionRange} :
    r.contains v = true ↔ r.startsBy v = true ∧ r.reaches v = true := by
  rw [contains, Bool.and_eq_true]
  rfl

/-- A range that does not reach `v` has an upper bound below `v`. -/
theorem reaches_eq_false_iff {v : Version} {r : VersionRange} :
    r.reaches v = false ↔ ∃ upper, r.upper = some upper ∧ upper < v := by
  cases h : r.upper with
  | none => simp [reaches, h]
  | some upper => simp [reaches, h, Std.not_le]

/-- The upper bound is inside a range unless the range is inverted. -/
theorem contains_upper_iff {bound : Version} {r : VersionRange}
    (hupper : r.upper = some bound) :
    r.contains bound = true ↔ ¬r.Inverted := by
  rw [contains_iff, startsBy_iff, reaches_iff]
  simp [Inverted, hupper, Std.not_lt]

/-- The lower bound is inside a range unless the range is inverted. -/
theorem contains_lower_iff {bound : Version} {r : VersionRange}
    (hlower : r.lower = some bound) :
    r.contains bound = true ↔ ¬r.Inverted := by
  rw [contains_iff, startsBy_iff, reaches_iff]
  simp [Inverted, hlower, Std.not_lt]

theorem startsBy_of_le {a b : Version} {r : VersionRange}
    (hab : a ≤ b) (h : r.startsBy a = true) : r.startsBy b = true := by
  rw [startsBy_iff] at h ⊢
  intro lower hlower
  exact Std.le_trans (h lower hlower) hab

theorem reaches_of_le {a b : Version} {r : VersionRange}
    (hab : a ≤ b) (h : r.reaches b = true) : r.reaches a = true := by
  rw [reaches_iff] at h ⊢
  intro upper hupper
  exact Std.le_trans hab (h upper hupper)

/-- Ranges do not tell equal versions apart. -/
theorem contains_of_beq {a b : Version} {r : VersionRange}
    (hab : (a == b) = true) (h : r.contains a = true) :
    r.contains b = true := by
  obtain ⟨hle, hge⟩ := Std.beq_iff_le_and_ge.mp hab
  obtain ⟨hstart, hreach⟩ := contains_iff.mp h
  exact contains_iff.mpr ⟨startsBy_of_le hle hstart, reaches_of_le hge hreach⟩

theorem UpperLE.refl (a : Option Version) : UpperLE a a := by
  cases a with
  | none => trivial
  | some v => exact Std.le_refl v

/-- A range that starts no later starts by whatever the other starts by. -/
theorem startsBy_of_lowerLE {r s : VersionRange} {v : Version}
    (hle : LowerLE r.lower s.lower) (hs : s.startsBy v = true) :
    r.startsBy v = true := by
  rw [startsBy_iff] at hs ⊢
  intro a ha
  cases hb : s.lower with
  | none => simp [LowerLE, Option.mem_def.mp ha, hb] at hle
  | some b =>
      have hab : a ≤ b := by simpa [LowerLE, Option.mem_def.mp ha, hb] using hle
      exact Std.le_trans hab (hs b hb)

/-- A range that ends no earlier reaches whatever the other reaches. -/
theorem reaches_of_upperLE {r s : VersionRange} {v : Version}
    (hle : UpperLE r.upper s.upper) (hr : r.reaches v = true) :
    s.reaches v = true := by
  rw [reaches_iff] at hr ⊢
  intro b hb
  cases ha : r.upper with
  | none => simp [UpperLE, ha, Option.mem_def.mp hb] at hle
  | some a =>
      have hab : a ≤ b := by simpa [UpperLE, ha, Option.mem_def.mp hb] using hle
      exact Std.le_trans (hr a ha) hab

/-! ## What the walk visits -/

/-- The ranges that the walk up to `limit` visits. -/
def visited (limit : Version) (ranges : List VersionRange) : List VersionRange :=
  ranges.takeWhile (startsBy limit)

theorem mem_visited {limit : Version} {ranges : List VersionRange}
    {r : VersionRange} (h : r ∈ visited limit ranges) :
    r ∈ ranges ∧ r.startsBy limit = true :=
  ⟨(List.takeWhile_sublist _).subset h,
    List.all_eq_true.mp List.all_takeWhile r h⟩

/-- The walk answers the limit if a visited range reaches it, and otherwise the
upper bound of the last visited range. -/
theorem walkUpTo_eq (limit : Version) (candidate : Option Version)
    (ranges : List VersionRange) :
    walkUpTo limit candidate ranges =
      if (visited limit ranges).any (reaches limit) then some limit
      else (visited limit ranges).getLast?.elim candidate upper := by
  induction ranges generalizing candidate with
  | nil => rfl
  | cons r rest ih =>
      have hstop : r.lower.any (fun lower => decide (limit < lower)) =
          !r.startsBy limit := by
        cases h : r.lower with
        | none => simp [startsBy, h]
        | some lower =>
            simp only [startsBy, h, Option.any_some, Option.all_some,
              ← decide_not, Std.not_le]
      rw [walkUpTo, hstop]
      by_cases hstart : r.startsBy limit = true
      · have hvisited :
            visited limit (r :: rest) = r :: visited limit rest :=
          List.takeWhile_cons_of_pos hstart
        rw [hvisited, List.any_cons]
        cases hreach : r.reaches limit with
        | true =>
            cases hupper : r.upper with
            | none => simp [hstart]
            | some upper =>
                have hle : limit ≤ upper := reaches_iff.mp hreach upper hupper
                simp [hstart, Std.not_lt.mpr hle]
        | false =>
            obtain ⟨upper, hupper, hlt⟩ := reaches_eq_false_iff.mp hreach
            simp only [hstart, hupper, hlt, ih, Bool.not_true,
              Bool.false_eq_true, Bool.false_or, if_false, if_true]
            -- The candidate matters only if nothing further is visited.
            cases visited limit rest with
            | nil => simp [hupper]
            | cons s more => simp [List.getLast?_cons]
      · have hvisited : visited limit (r :: rest) = [] :=
          List.takeWhile_cons_of_neg hstart
        simp [hvisited, hstart]

/-- How the walk can end: a visited range reaches the limit, nothing is visited,
or the last visited range ends below the limit like all others. -/
theorem newestUpTo?_cases (limit : Version) (ranges : List VersionRange) :
    (∃ r ∈ visited limit ranges, r.reaches limit = true ∧
        newestUpTo? limit ranges = some limit) ∨
      (visited limit ranges = [] ∧ newestUpTo? limit ranges = none) ∨
      ∃ last bound, (visited limit ranges).getLast? = some last ∧
        last.upper = some bound ∧ bound < limit ∧
        (∀ r ∈ visited limit ranges, r.reaches limit = false) ∧
        newestUpTo? limit ranges = some bound := by
  rw [newestUpTo?, walkUpTo_eq]
  cases hany : (visited limit ranges).any (reaches limit) with
  | true =>
      obtain ⟨r, hr, hreach⟩ := List.any_eq_true.mp hany
      exact Or.inl ⟨r, hr, hreach, rfl⟩
  | false =>
      have hnone : ∀ r ∈ visited limit ranges, r.reaches limit = false := by
        intro r hr
        simpa using List.any_eq_false.mp hany r hr
      cases hlast : (visited limit ranges).getLast? with
      | none =>
          exact Or.inr (Or.inl ⟨List.getLast?_eq_none_iff.mp hlast, rfl⟩)
      | some last =>
          have hmem : last ∈ visited limit ranges :=
            List.mem_of_getLast? hlast
          obtain ⟨bound, hbound, hlt⟩ :=
            reaches_eq_false_iff.mp (hnone last hmem)
          exact Or.inr (Or.inr
            ⟨last, bound, rfl, hbound, hlt, hnone, hbound⟩)

/-! ## Ascending ranges -/

/-- No range is inverted, and neither bound ever decreases along the list. -/
structure Ascending (ranges : List VersionRange) : Prop where
  proper : ∀ r ∈ ranges, ¬r.Inverted
  lowers : ranges.Pairwise fun r s => LowerLE r.lower s.lower
  uppers : ranges.Pairwise fun r s => UpperLE r.upper s.upper

theorem ascending_iff {ranges : List VersionRange} :
    Ascending ranges ↔
      (∀ r ∈ ranges, ¬r.Inverted) ∧
        (ranges.Pairwise fun r s => LowerLE r.lower s.lower) ∧
        ranges.Pairwise fun r s => UpperLE r.upper s.upper :=
  ⟨fun h => ⟨h.proper, h.lowers, h.uppers⟩, fun h => ⟨h.1, h.2.1, h.2.2⟩⟩

instance (ranges : List VersionRange) : Decidable (Ascending ranges) :=
  decidable_of_iff' _ ascending_iff

/-- When lower bounds never decrease, the walk visits every range that starts by
the limit. -/
theorem mem_visited_of_startsBy
    {limit : Version} {ranges : List VersionRange} {r : VersionRange}
    (hlowers : ranges.Pairwise fun r s => LowerLE r.lower s.lower)
    (hr : r ∈ ranges) (hstart : r.startsBy limit = true) :
    r ∈ visited limit ranges := by
  induction hlowers with
  | nil => simp at hr
  | @cons s rest hhead _ ih =>
      rcases List.mem_cons.mp hr with rfl | hrest
      · rw [visited, List.takeWhile_cons_of_pos hstart]
        exact List.mem_cons_self
      · have hs : s.startsBy limit = true :=
          startsBy_of_lowerLE (hhead r hrest) hstart
        rw [visited, List.takeWhile_cons_of_pos hs]
        exact List.mem_cons_of_mem s (ih hrest)

/-- When upper bounds never decrease, the last visited range ends highest. -/
theorem upperLE_getLast_visited
    {limit : Version} {ranges : List VersionRange} {r last : VersionRange}
    (huppers : ranges.Pairwise fun r s => UpperLE r.upper s.upper)
    (hlast : (visited limit ranges).getLast? = some last)
    (hr : r ∈ visited limit ranges) :
    UpperLE r.upper last.upper := by
  obtain ⟨before, hsplit⟩ := List.getLast?_eq_some_iff.mp hlast
  have hpair : (before ++ [last]).Pairwise
      fun r s => UpperLE r.upper s.upper :=
    hsplit ▸ huppers.sublist (List.takeWhile_sublist _)
  rw [hsplit, List.mem_append, List.mem_singleton] at hr
  rcases hr with hbefore | rfl
  · exact (List.pairwise_append.mp hpair).2.2 r hbefore last
      List.mem_cons_self
  · exact UpperLE.refl r.upper

/-- On ascending ranges the walk finds the greatest version up to the limit that
any range contains. -/
theorem newestUpTo?_isGreatest {ranges : List VersionRange}
    (h : Ascending ranges) (limit : Version) :
    (∀ v, newestUpTo? limit ranges = some v →
      v ≤ limit ∧ (∃ r ∈ ranges, r.contains v = true) ∧
        ∀ x, x ≤ limit → (∃ r ∈ ranges, r.contains x = true) → x ≤ v) ∧
      (newestUpTo? limit ranges = none ↔
        ∀ x, x ≤ limit → ¬∃ r ∈ ranges, r.contains x = true) := by
  -- A range with a version up to the limit starts by the limit, so it is visited.
  have hvisit : ∀ x, x ≤ limit → ∀ r ∈ ranges, r.contains x = true →
      r ∈ visited limit ranges ∧ r.reaches x = true := by
    intro x hx r hr hcontains
    obtain ⟨hstart, hreach⟩ := contains_iff.mp hcontains
    exact ⟨mem_visited_of_startsBy h.lowers hr (startsBy_of_le hx hstart),
      hreach⟩
  rcases newestUpTo?_cases limit ranges with
    ⟨r, hr, hreach, hnewest⟩ | ⟨hnil, hnewest⟩ |
      ⟨last, bound, hlast, hupper, hlt, hnone, hnewest⟩
  · obtain ⟨hmem, hstart⟩ := mem_visited hr
    have hcontains : ∃ r ∈ ranges, r.contains limit = true :=
      ⟨r, hmem, contains_iff.mpr ⟨hstart, hreach⟩⟩
    rw [hnewest]
    constructor
    · rintro v ⟨⟩
      exact ⟨Std.le_refl limit, hcontains, fun x hx _ => hx⟩
    · exact iff_of_false (by simp)
        fun hall => hall limit (Std.le_refl limit) hcontains
  · rw [hnewest]
    refine ⟨by simp, iff_of_true rfl ?_⟩
    rintro x hx ⟨r, hr, hcontains⟩
    have hmem := (hvisit x hx r hr hcontains).1
    simp [hnil] at hmem
  · have hmem := (mem_visited (List.mem_of_getLast? hlast)).1
    have hcontains : ∃ r ∈ ranges, r.contains bound = true :=
      ⟨last, hmem, (contains_upper_iff hupper).mpr (h.proper last hmem)⟩
    rw [hnewest]
    constructor
    · rintro v ⟨⟩
      refine ⟨Std.le_of_lt hlt, hcontains, ?_⟩
      rintro x hx ⟨r, hr, hx'⟩
      obtain ⟨hvisited, hreach⟩ := hvisit x hx r hr hx'
      have hle := upperLE_getLast_visited h.uppers hlast hvisited
      exact reaches_iff.mp (reaches_of_upperLE hle hreach) bound hupper
    · exact iff_of_false (by simp)
        fun hall => hall bound (Std.le_of_lt hlt) hcontains

/-- Between two ranges the walk falls back to the end of the first. -/
theorem newestUpTo?_isGreatest_in_gap :
    ∃ (ranges : List VersionRange) (limit bound : Version),
      Ascending ranges ∧ newestUpTo? limit ranges = some bound ∧
        bound < limit ∧
        ∀ x, x ≤ limit → (∃ r ∈ ranges, r.contains x = true) → x ≤ bound := by
  let first : VersionRange :=
    ⟨some ⟨"1.0", by decide, by decide⟩, some ⟨"1.5", by decide, by decide⟩⟩
  let second : VersionRange := ⟨some ⟨"2.0", by decide, by decide⟩, none⟩
  let limit : Version := ⟨"1.8", by decide, by decide⟩
  have hascending : Ascending [first, second] := by decide +kernel
  have hnewest : newestUpTo? limit [first, second] = first.upper := rfl
  exact ⟨[first, second], limit, ⟨"1.5", by decide, by decide⟩, hascending,
    hnewest, by decide +kernel,
    ((newestUpTo?_isGreatest hascending limit).1 _ hnewest).2.2⟩

end VersionRange
end DevSpecs
