import DevSpecs.Proofs.Version.Walk
import DevSpecs.Proofs.Dependency.Declared
import DevSpecs.Proofs.Dependency.Asking

/-!
# The minimum of a dependency

The first lower bound is the minimum of a dependency for three parts of the
library that do not know of each other: the check of a declaration lets no range
start below it, no supported version lies below it, and the walk along the ranges
comes back without a version exactly for the limits below it.  The ranges may
overlap and may follow each other in any order.
-/

namespace DevSpecs

namespace VersionRange

/-- The walk finds nothing exactly if it visits nothing. -/
theorem newestUpTo?_eq_none_iff_visited {limit : Version}
    {ranges : List VersionRange} :
    newestUpTo? limit ranges = none ↔ visited limit ranges = [] := by
  rcases newestUpTo?_cases limit ranges with
    ⟨r, hr, _, hnewest⟩ | ⟨hnil, hnewest⟩ | ⟨last, bound, hlast, _, _, _, hnewest⟩
  · apply iff_of_false
    · simp [hnewest]
    · exact List.ne_nil_of_mem hr
  · exact iff_of_true hnewest hnil
  · apply iff_of_false
    · simp [hnewest]
    · exact List.ne_nil_of_mem (List.mem_of_getLast? hlast)

/-- The walk visits nothing exactly if the first range starts above the limit. -/
theorem visited_eq_nil_iff {limit : Version} {ranges : List VersionRange} :
    visited limit ranges = [] ↔
      ∀ first ∈ ranges.head?, first.startsBy limit = false := by
  cases ranges with
  | nil => simp [visited]
  | cons first rest =>
      rw [visited, List.takeWhile_cons]
      cases h : first.startsBy limit with
      | true => simp [h]
      | false => simp [h]

theorem startsBy_eq_false_iff {minimum v : Version} {r : VersionRange}
    (hlower : r.lower = some minimum) :
    r.startsBy v = false ↔ v < minimum := by
  rw [← Bool.not_eq_true, startsBy_iff, ← Std.not_le]
  simp [hlower]

end VersionRange

open VersionRange

/-- Ranges may be declared together exactly if they all have lower bounds and none
of these is below the first. -/
theorem declared_iff {ranges : List VersionRange} :
    Declared ranges ↔
      ranges = [] ∨
        (∀ r ∈ ranges, r.lower ≠ none) ∧
          ∀ first ∈ ranges.head?, ∀ minimum ∈ first.lower,
            ∀ r ∈ ranges, ∀ lower ∈ r.lower, ¬lower < minimum := by
  constructor
  · intro h
    cases ranges with
    | nil => exact .inl rfl
    | cons first rest =>
        obtain ⟨minimum, hminimum, hall⟩ := h first rfl
        refine .inr ⟨?_, ?_⟩
        · intro r hr
          obtain ⟨lower, hlower, _⟩ := hall r hr
          rw [Option.mem_def.mp hlower]
          exact Option.some_ne_none lower
        · rintro _ ⟨⟩ m hm r hr lower hlower
          obtain rfl : minimum = m := Option.some.inj (hminimum.symm.trans hm)
          obtain ⟨lower', hlower', hle⟩ := hall r hr
          obtain rfl : lower' = lower :=
            Option.some.inj (hlower'.symm.trans hlower)
          exact Std.not_lt.mpr hle
  · rintro (rfl | ⟨hlowers, hfirst⟩)
    · exact nofun
    · intro first hhead
      have hmem := List.mem_of_head? hhead
      obtain ⟨minimum, hminimum⟩ := Option.ne_none_iff_exists'.mp (hlowers first hmem)
      refine ⟨minimum, hminimum, fun r hr => ?_⟩
      obtain ⟨lower, hlower⟩ := Option.ne_none_iff_exists'.mp (hlowers r hr)
      exact ⟨lower, hlower,
        Std.not_lt.mp (hfirst first hhead minimum hminimum r hr lower hlower)⟩

namespace Dependency

variable {d : Dependency} {minimum : Version}

/-- No supported version lies below a bound that every range starts at or above. -/
theorem le_of_supports (hranges : d.ranges ≠ [])
    (hall : ∀ r ∈ d.ranges, ∃ lower ∈ r.lower, minimum ≤ lower)
    {v : Version} (h : d.supports v = true) : minimum ≤ v := by
  obtain ⟨r, hr, hcontains⟩ := (supports_iff hranges v).mp h
  obtain ⟨lower, hlower, hle⟩ := hall r hr
  have hstart := (contains_iff.mp hcontains).1
  exact Std.le_trans hle (startsBy_iff.mp hstart lower hlower)

/-- The walk along the ranges of a dependency finds nothing exactly for limits
below the minimum. -/
theorem newestUpTo?_eq_none_iff (h : d.minimum? = some minimum)
    {limit : Version} :
    newestUpTo? limit d.ranges = none ↔ limit < minimum := by
  obtain ⟨first, hfirst, hlower⟩ := Option.bind_eq_some_iff.mp h
  rw [newestUpTo?_eq_none_iff_visited, visited_eq_nil_iff, hfirst]
  simp only [Option.mem_some_iff, forall_eq']
  exact startsBy_eq_false_iff hlower

/-- The question about the newest version fails for want of a supported version
exactly when it is put to the index and the version answered lies below the
minimum. -/
theorem newestVersion_empty_iff (h : d.minimum? = some minimum)
    (index : Index) (s : Knowledge) :
    (∃ package latest ranges, ((d.newestVersion index).run s).1 =
        .error (.emptyIntersection package latest ranges)) ↔
      s.1.latest = none ∧
        ∃ newest, index.latest s.2 d.package = .ok newest ∧ newest < minimum := by
  have hranges : d.ranges ≠ [] := by
    intro hnil
    simp [minimum?, hnil] at h
  have hends := newestVersion_ends d index s
  generalize (d.newestVersion index).run s = r at hends
  cases hends with
  | unconstrained hnil => exact absurd hnil hranges
  | repeated v _ hlearnt => simp [hlearnt]
  | failed cause _ _ hquery => simp [hquery]
  | empty newest _ hlearnt hquery hwalk =>
      have hlt := (newestUpTo?_eq_none_iff h).mp hwalk
      exact iff_of_true ⟨_, _, _, rfl⟩ ⟨hlearnt, newest, hquery, hlt⟩
  | found newest v _ _ hquery hwalk =>
      apply iff_of_false
      · rintro ⟨_, _, _, ⟨⟩⟩
      · rintro ⟨_, newest', hquery', hlt⟩
        obtain rfl : newest = newest' := Except.ok.inj (hquery.symm.trans hquery')
        rw [← newestUpTo?_eq_none_iff h, hwalk] at hlt
        cases hlt

/-- A spec that can be read is accepted exactly if it declares no ranges, or all of
them have lower bounds and none is below the first one.  This bound is then the
minimum: no supported version lies below it, and the question about the newest
version ends without a supported version exactly when the index answers a version
below it. -/
theorem declaration_fixes_minimum :
    (∀ spec when s, Spec.parse spec = .ok s →
      ((∃ d, Dependency.parse spec when = .ok d ∧ d.ranges = s.ranges) ↔
        s.ranges = [] ∨
          (∀ r ∈ s.ranges, r.lower ≠ none) ∧
            ∀ first ∈ s.ranges.head?, ∀ minimum ∈ first.lower,
              ∀ r ∈ s.ranges, ∀ lower ∈ r.lower, ¬lower < minimum)) ∧
    ∀ spec when d, Dependency.parse spec when = .ok d → d.ranges ≠ [] →
      ∃ minimum, d.minimum? = some minimum ∧
        (∀ v, d.supports v = true → minimum ≤ v) ∧
        ∀ index s,
          (∃ package latest ranges, ((d.newestVersion index).run s).1 =
              .error (.emptyIntersection package latest ranges)) ↔
            s.1.latest = none ∧
              ∃ newest, index.latest s.2 d.package = .ok newest ∧
                newest < minimum := by
  constructor
  · intro spec when s hspec
    rw [← declared_iff]
    constructor
    · rintro ⟨d, hparse, hranges⟩
      obtain ⟨s', hspec', hdeclared, _⟩ := parse_eq_ok_iff.mp hparse
      obtain rfl : s = s' := Except.ok.inj (hspec.symm.trans hspec')
      exact hdeclared
    · intro hdeclared
      exact ⟨_, parse_eq_ok_iff.mpr ⟨s, hspec, hdeclared, rfl⟩, rfl⟩
  · intro spec when d hparse hranges
    obtain ⟨minimum, hminimum, _, hall⟩ := exists_minimum hparse hranges
    exact ⟨minimum, hminimum, fun v => le_of_supports hranges hall,
      newestVersion_empty_iff hminimum⟩

/-- The ranges overlap, do not ascend, and start at the minimum twice. -/
theorem declaration_fixes_minimum_overlapping :
    ∃ s d minimum below,
      Spec.parse "foo@1.5:4,3:,1.5:2" = .ok s ∧
      Dependency.parse "foo@1.5:4,3:,1.5:2" none = .ok d ∧ d.ranges ≠ [] ∧
      (∀ r ∈ s.ranges, r.lower ≠ none) ∧
      d.minimum? = some minimum ∧ (∀ v, d.supports v = true → minimum ≤ v) ∧
      below < minimum ∧
      ∀ index : Index, index.latest [] d.package = .ok below →
        ∃ package latest ranges, ((d.newestVersion index).run ({}, [])).1 =
          .error (.emptyIntersection package latest ranges) := by
  let below : Version := ⟨"1.4.9", by decide, by decide⟩
  obtain ⟨d, hparse, hcheck⟩ :=
    exists_ok_of_any (Dependency.parse "foo@1.5:4,3:,1.5:2" none)
      (fun d => decide (d.ranges ≠ [] ∧ ∃ minimum ∈ d.minimum?, below < minimum))
      (by decide +kernel)
  obtain ⟨hranges, start, hstart, hbelow⟩ := of_decide_eq_true hcheck
  obtain ⟨haccepted, hminimum⟩ := declaration_fixes_minimum
  obtain ⟨s, hspec, _, hd⟩ := parse_eq_ok_iff.mp hparse
  have hsame : d.ranges = s.ranges := congrArg Dependency.ranges hd
  have hlowers : ∀ r ∈ s.ranges, r.lower ≠ none := by
    rcases (haccepted _ none s hspec).mp ⟨d, hparse, hsame⟩ with hnil | ⟨hlowers, _⟩
    · exact absurd (hsame.trans hnil) hranges
    · exact hlowers
  obtain ⟨minimum, hfirst, hle, hempty⟩ := hminimum _ none d hparse hranges
  obtain rfl : start = minimum := Option.some.inj (hstart.symm.trans hfirst)
  refine ⟨s, d, start, below, hspec, hparse, hranges, hlowers, hfirst, hle, hbelow, ?_⟩
  intro index hquery
  exact (hempty index ({}, [])).mpr ⟨rfl, below, hquery, hbelow⟩

end Dependency

end DevSpecs
