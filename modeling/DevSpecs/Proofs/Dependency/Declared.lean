import DevSpecs.Proofs.Version.Order
import DevSpecs.Proofs.Outcomes
import DevSpecs.Dependency

/-!
# Accepted declarations

A dependency is accepted when its spec can be read and its ranges may be
declared together.  What acceptance promises about the ranges is less than an
ascending order: every range has a lower bound, and none starts below the first
one.
-/

namespace DevSpecs

/-- Every range has a lower bound, and none starts below the first one. -/
def Declared (ranges : List VersionRange) : Prop :=
  ∀ first ∈ ranges.head?, ∃ minimum ∈ first.lower,
    ∀ r ∈ ranges, ∃ lower ∈ r.lower, minimum ≤ lower

theorem ascendFrom_iff {minimum : Version} {ranges : List VersionRange} :
    ascendFrom minimum ranges = true ↔
      ∀ r ∈ ranges, ∃ lower ∈ r.lower, minimum ≤ lower := by
  simp only [ascendFrom, List.all_eq_true]
  refine forall_congr' fun r => forall_congr' fun _ => ?_
  cases h : r.lower with
  | none => simp
  | some lower => simp [Std.not_lt]

namespace Dependency

/-- A dependency is read exactly when its spec is and its ranges may be declared
together; it then holds what the spec says. -/
theorem parse_eq_ok_iff {spec : Text} {when : Option Text} {d : Dependency} :
    Dependency.parse spec when = .ok d ↔
      ∃ s, Spec.parse spec = .ok s ∧ Declared s.ranges ∧
        d = ⟨s.package, s.base, s.ranges, when⟩ := by
  cases hspec : Spec.parse spec with
  | error e => simp [Dependency.parse, hspec, bind, Except.bind]
  | ok s =>
      cases hranges : s.ranges with
      | nil =>
          simp [Dependency.parse, hspec, hranges, Declared, bind, Except.bind,
            pure, Except.pure, eq_comm]
      | cons first rest =>
          cases hlower : first.lower with
          | none =>
              simp [Dependency.parse, hspec, hranges, hlower, Declared, bind,
                Except.bind, throw, throwThe, MonadExceptOf.throw]
          | some minimum =>
              have hascend :
                  ascendFrom minimum (first :: rest) = true ↔
                    Declared (first :: rest) := by
                rw [ascendFrom_iff]
                simp [Declared, hlower]
              cases h : ascendFrom minimum (first :: rest) with
              | true =>
                  simp [Dependency.parse, hspec, hranges, hlower, h,
                    hascend.mp h, bind, Except.bind, pure, Except.pure,
                    eq_comm]
              | false =>
                  have hnot : ¬Declared (first :: rest) := by
                    simp [← hascend, h]
                  simp [Dependency.parse, hspec, hranges, hlower, h, hnot, bind,
                    Except.bind, throw, throwThe, MonadExceptOf.throw]

/-- An accepted dependency with ranges has a minimum, and every range starts at
or above it. -/
theorem exists_minimum {spec : Text} {when : Option Text} {d : Dependency}
    (h : Dependency.parse spec when = .ok d) (hranges : d.ranges ≠ []) :
    ∃ minimum, d.minimum? = some minimum ∧
      (∃ r ∈ d.ranges, r.lower = some minimum) ∧
      ∀ r ∈ d.ranges, ∃ lower ∈ r.lower, minimum ≤ lower := by
  obtain ⟨s, _, hdeclared, rfl⟩ := parse_eq_ok_iff.mp h
  obtain ⟨first, rest, hcons⟩ := List.exists_cons_of_ne_nil hranges
  have hhead : first ∈ s.ranges.head? := by
    simp [show s.ranges = first :: rest from hcons]
  obtain ⟨minimum, hlower, hall⟩ := hdeclared first hhead
  refine ⟨minimum, ?_, ⟨first, List.mem_of_head? hhead, hlower⟩, hall⟩
  simp only [minimum?, Option.mem_def.mp hhead]
  exact hlower

theorem supports_iff {d : Dependency} (hranges : d.ranges ≠ []) (v : Version) :
    d.supports v = true ↔ ∃ r ∈ d.ranges, r.contains v = true := by
  simp [supports, hranges]

end Dependency

end DevSpecs
