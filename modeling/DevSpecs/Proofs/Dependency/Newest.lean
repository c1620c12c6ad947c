import DevSpecs.Proofs.Version.Walk
import DevSpecs.Proofs.Dependency.Declared

/-!
# The newest version that declared ranges offer

The answer that a list of ranges should give for a limit does not depend on
their order.  The walk leaves ranges out, because declared ranges need not
ascend.  The main statement says for which lists and limits it gives the right
answer all the same.
-/

namespace DevSpecs
namespace VersionRange

/-- The upper bounds below the limit, of the ranges that start by it. -/
def uppersBelow (limit : Version) (ranges : List VersionRange) : List Version :=
  ((ranges.filter (startsBy limit)).filterMap upper).filter
    fun bound => decide (bound < limit)

/-- The answer is the limit if any range contains it, otherwise the highest
upper bound below it among the ranges that start by it, and nothing if there is
no such bound. -/
def IsNewestUpTo (limit : Version) (ranges : List VersionRange) :
    Option Version → Prop
  | some v =>
      if ranges.any (·.contains limit) then v = limit
      else v ∈ uppersBelow limit ranges ∧
        ∀ bound ∈ uppersBelow limit ranges, bound ≤ v
  | none =>
      ranges.any (·.contains limit) = false ∧ uppersBelow limit ranges = []

/-- Nothing that the walk leaves out matters: a visited range reaches the limit,
or no range that starts by the limit ends above the last visited one. -/
def WalkSuffices (limit : Version) (ranges : List VersionRange) : Prop :=
  (∃ r ∈ visited limit ranges, r.reaches limit = true) ∨
    ∀ r ∈ ranges, r.startsBy limit = true →
      ∃ last ∈ (visited limit ranges).getLast?, UpperLE r.upper last.upper

theorem mem_uppersBelow {limit bound : Version} {ranges : List VersionRange} :
    bound ∈ uppersBelow limit ranges ↔
      ∃ r ∈ ranges, r.startsBy limit = true ∧ r.upper = some bound ∧
        bound < limit := by
  simp only [uppersBelow, List.mem_filter, List.mem_filterMap,
    decide_eq_true_eq]
  constructor
  · rintro ⟨⟨r, ⟨hr, hstart⟩, hupper⟩, hlt⟩
    exact ⟨r, hr, hstart, hupper, hlt⟩
  · rintro ⟨r, hr, hstart, hupper, hlt⟩
    exact ⟨⟨r, ⟨hr, hstart⟩, hupper⟩, hlt⟩

/-- If a range contains the limit, the answer can only be the limit. -/
theorem IsNewestUpTo.eq_limit
    {limit : Version} {ranges : List VersionRange} {answer : Option Version}
    (hany : ranges.any (·.contains limit) = true)
    (h : IsNewestUpTo limit ranges answer) : answer = some limit := by
  cases answer with
  | none => simp [IsNewestUpTo, hany] at h
  | some v => simpa [IsNewestUpTo, hany] using h

theorem isNewestUpTo_limit_of_contains
    {limit : Version} {ranges : List VersionRange} {r : VersionRange}
    (hr : r ∈ ranges) (hcontains : r.contains limit = true) :
    IsNewestUpTo limit ranges (some limit) := by
  have hany : ranges.any (·.contains limit) = true :=
    List.any_eq_true.mpr ⟨r, hr, hcontains⟩
  simp [IsNewestUpTo, hany]

/-- If no range contains the limit, a range that starts by it has its upper
bound below it. -/
theorem upper_mem_uppersBelow
    {limit : Version} {ranges : List VersionRange} {r : VersionRange}
    (hany : ranges.any (·.contains limit) = false)
    (hr : r ∈ ranges) (hstart : r.startsBy limit = true) :
    ∃ bound ∈ uppersBelow limit ranges, r.upper = some bound := by
  have hcontains : ¬r.contains limit = true :=
    List.any_eq_false.mp hany r hr
  have hreach : r.reaches limit = false := by
    rw [contains_iff] at hcontains
    simpa [hstart] using hcontains
  obtain ⟨bound, hupper, hlt⟩ := reaches_eq_false_iff.mp hreach
  exact ⟨bound, mem_uppersBelow.mpr ⟨r, hr, hstart, hupper, hlt⟩, hupper⟩

/-- Ranges should give no answer exactly when none starts by the limit. -/
theorem isNewestUpTo_none_iff
    {limit : Version} {ranges : List VersionRange} :
    IsNewestUpTo limit ranges none ↔
      ∀ r ∈ ranges, r.startsBy limit = false := by
  constructor
  · rintro ⟨hany, huppers⟩ r hr
    rw [← Bool.not_eq_true]
    intro hstart
    obtain ⟨bound, hbound, _⟩ := upper_mem_uppersBelow hany hr hstart
    simp [huppers] at hbound
  · intro hnone
    constructor
    · rw [List.any_eq_false]
      intro r hr hcontains
      simp [contains_iff, hnone r hr] at hcontains
    · rw [List.eq_nil_iff_forall_not_mem]
      intro bound hbound
      obtain ⟨r, hr, hstart, _⟩ := mem_uppersBelow.mp hbound
      simp [hnone r hr] at hstart

/-- Ranges should give a version below the limit exactly when it is one of the
upper bounds below the limit and no range that starts by the limit ends above
it. -/
theorem isNewestUpTo_bound_iff
    {limit bound : Version} {ranges : List VersionRange}
    (hlt : bound < limit) :
    IsNewestUpTo limit ranges (some bound) ↔
      bound ∈ uppersBelow limit ranges ∧
        ∀ r ∈ ranges, r.startsBy limit = true →
          UpperLE r.upper (some bound) := by
  cases hany : ranges.any (·.contains limit) with
  | true =>
      obtain ⟨r, hr, hcontains⟩ := List.any_eq_true.mp hany
      obtain ⟨hstart, hreach⟩ := contains_iff.mp hcontains
      constructor
      · intro h
        have heq : bound = limit := Option.some.inj (h.eq_limit hany)
        exact absurd hlt (heq ▸ Std.lt_irrefl)
      · rintro ⟨_, hall⟩
        have hle : limit ≤ bound :=
          reaches_iff.mp
            (reaches_of_upperLE (s := ⟨none, some bound⟩)
              (hall r hr hstart) hreach) bound rfl
        exact absurd hle (Std.not_le.mpr hlt)
  | false =>
      simp only [IsNewestUpTo, hany, Bool.false_eq_true, if_false]
      refine and_congr_right fun _ => ⟨fun hall r hr hstart => ?_, ?_⟩
      · obtain ⟨b, hb, hupper⟩ := upper_mem_uppersBelow hany hr hstart
        rw [hupper]
        exact hall b hb
      · intro hall b hb
        obtain ⟨r, hr, hstart, hupper, _⟩ := mem_uppersBelow.mp hb
        have hle := hall r hr hstart
        rwa [hupper] at hle

/-- The walk gives the answer that the ranges should give exactly when nothing
that it leaves out matters. -/
theorem isNewestUpTo_newestUpTo?_iff
    (limit : Version) (ranges : List VersionRange) :
    IsNewestUpTo limit ranges (newestUpTo? limit ranges) ↔
      WalkSuffices limit ranges := by
  rcases newestUpTo?_cases limit ranges with
    ⟨r, hr, hreach, hnewest⟩ | ⟨hnil, hnewest⟩ |
      ⟨last, bound, hlast, hupper, hlt, hnone, hnewest⟩
  · obtain ⟨hmem, hstart⟩ := mem_visited hr
    have hcontains : r.contains limit = true :=
      contains_iff.mpr ⟨hstart, hreach⟩
    rw [hnewest]
    exact iff_of_true (isNewestUpTo_limit_of_contains hmem hcontains)
      (Or.inl ⟨r, hr, hreach⟩)
  · rw [hnewest, isNewestUpTo_none_iff]
    simp [WalkSuffices, hnil]
  · obtain ⟨hmem, hstart⟩ := mem_visited (List.mem_of_getLast? hlast)
    have hbound : bound ∈ uppersBelow limit ranges :=
      mem_uppersBelow.mpr ⟨last, hmem, hstart, hupper, hlt⟩
    have hreach : ¬∃ r ∈ visited limit ranges, r.reaches limit = true := by
      rintro ⟨r, hr, h⟩
      simp [hnone r hr] at h
    rw [hnewest, isNewestUpTo_bound_iff hlt, and_iff_right hbound,
      WalkSuffices, or_iff_right hreach]
    simp [hlast, hupper]

/-- Declared ranges need not ascend, and the walk can stop before a later range
that contains the limit. -/
theorem walk_stops_before_later_range :
    ∃ d limit, Dependency.parse "foo@1:2,5:6,3:4" none = .ok d ∧
      ¬IsNewestUpTo limit d.ranges (newestUpTo? limit d.ranges) := by
  let limit : Version := ⟨"4", by decide, by decide⟩
  let misses (d : Dependency) : Bool :=
    d.ranges.any (·.contains limit) &&
      (newestUpTo? limit d.ranges).all (·.text ≠ limit.text)
  obtain ⟨d, hparse, hmisses⟩ :=
    exists_ok_of_any (Dependency.parse "foo@1:2,5:6,3:4" none) misses
      (by decide +kernel)
  obtain ⟨hany, hother⟩ := Bool.and_eq_true_iff.mp hmisses
  refine ⟨d, limit, hparse, fun h => ?_⟩
  rw [h.eq_limit hany] at hother
  simp at hother

end VersionRange
end DevSpecs
