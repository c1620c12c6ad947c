import DevSpecs.Resolution
import DevSpecs.Proofs.Text.Ascending
import DevSpecs.Proofs.Version.Equality
import Mathlib.Data.List.Basic

/-!
# Distinct dependencies

Two dependencies are equal when they agree in everything but the spelling of
versions.  Of several equal dependencies the first one is kept.  The kept ones
are found in one pass that puts every dependency into a hash set; the hash of a
dependency is made from the segments of its versions, so no equal one is missed.
-/

namespace DevSpecs

namespace Dependency

/-- What equal dependencies have in common. -/
structure Identity where
  package : Text
  base : Text
  ranges : List (Option (List Segment) × Option (List Segment))
  when : Option Text
  deriving DecidableEq

/-- A dependency up to the spelling of its versions. -/
def identity (d : Dependency) : Identity where
  package := d.package
  base := d.base
  ranges := d.ranges.map VersionRange.segments
  when := d.when

variable {d e : Dependency}

section Identity

variable (h : d.identity = e.identity)

include h

theorem package_eq_of_identity_eq : d.package = e.package :=
  congrArg Identity.package h

theorem base_eq_of_identity_eq : d.base = e.base :=
  congrArg Identity.base h

theorem segments_eq_of_identity_eq :
    d.ranges.map VersionRange.segments = e.ranges.map VersionRange.segments :=
  congrArg Identity.ranges h

theorem when_eq_of_identity_eq : d.when = e.when :=
  congrArg Identity.when h

end Identity

theorem beq_iff_fields :
    (d == e) = true ↔
      d.package = e.package ∧ d.base = e.base ∧
        (d.ranges == e.ranges) = true ∧ d.when = e.when := by
  change (d.package == e.package &&
    (d.base == e.base && (d.ranges == e.ranges && d.when == e.when))) =
      true ↔ _
  simp only [Bool.and_eq_true, beq_iff_eq (α := Text),
    beq_iff_eq (α := Option Text)]

theorem beq_iff_identity_eq : (d == e) = true ↔ d.identity = e.identity := by
  rw [beq_iff_fields, list_beq_iff VersionRange.beq_iff_segments_eq, identity,
    identity, Identity.mk.injEq]

instance : EquivBEq Dependency where
  rfl := beq_iff_identity_eq.mpr rfl
  symm h := beq_iff_identity_eq.mpr (beq_iff_identity_eq.mp h).symm
  trans h h' :=
    beq_iff_identity_eq.mpr
      ((beq_iff_identity_eq.mp h).trans (beq_iff_identity_eq.mp h'))

/-- Equal dependencies have the same hash. -/
instance : LawfulHashable Dependency where
  hash_eq d e h := by
    obtain ⟨hpackage, hbase, hranges, hwhen⟩ := beq_iff_fields.mp h
    change
      mixHash
        (mixHash (hash (String.ofList d.package)) (hash (String.ofList d.base)))
        (mixHash (hash d.ranges) (hash (d.when.map String.ofList))) =
      mixHash
        (mixHash (hash (String.ofList e.package)) (hash (String.ofList e.base)))
        (mixHash (hash e.ranges) (hash (e.when.map String.ofList)))
    rw [hpackage, hbase, hash_eq hranges, hwhen]

end Dependency

namespace TrackedDependency

/-- A dependency that has learnt nothing. -/
def fresh (d : Dependency) : TrackedDependency :=
  { dependency := d }

theorem map_dependency_fresh (ds : List Dependency) :
    (ds.map fresh).map dependency = ds := by
  rw [List.map_map]
  exact List.map_id ds

/-! ## First of its kind -/

/-- A dependency stands in a list, and no earlier one is equal to it. -/
def FirstIn (ds : List TrackedDependency) (d : TrackedDependency) : Prop :=
  ∃ before after, ds = before ++ d :: after ∧
    ∀ e ∈ before, e.dependency.identity ≠ d.dependency.identity

variable {d e : TrackedDependency} {ds : List TrackedDependency}

theorem FirstIn.mem (h : FirstIn ds d) : d ∈ ds := by
  obtain ⟨before, after, rfl, -⟩ := h
  exact List.mem_append_right before List.mem_cons_self

/-- What comes first depends on the dependencies only, not on what is learnt. -/
theorem FirstIn.of_map_dependency_eq {ds' : List TrackedDependency}
    (h : FirstIn ds d) (hsame : ds.map dependency = ds'.map dependency) :
    ∃ e, FirstIn ds' e ∧ e.dependency = d.dependency := by
  obtain ⟨before, after, rfl, hbefore⟩ := h
  rw [List.map_append, List.map_cons] at hsame
  obtain ⟨before', rest, rfl, hbefore', hrest⟩ :=
    List.map_eq_append_iff.mp hsame.symm
  obtain ⟨e, after', rfl, he, -⟩ := List.map_eq_cons_iff.mp hrest
  refine ⟨e, ⟨before', after', rfl, fun x hx => ?_⟩, he⟩
  have hmem : x.dependency ∈ before.map dependency :=
    hbefore' ▸ List.mem_map_of_mem hx
  obtain ⟨y, hy, hyx⟩ := List.mem_map.mp hmem
  rw [← hyx, he]
  exact hbefore y hy

theorem firstIn_cons_iff :
    FirstIn (e :: ds) d ↔
      d = e ∨ e.dependency.identity ≠ d.dependency.identity ∧ FirstIn ds d := by
  constructor
  · rintro ⟨before, after, hsplit, hbefore⟩
    cases before with
    | nil => exact .inl (List.cons.inj hsplit).1.symm
    | cons x before =>
        obtain ⟨rfl, hrest⟩ := List.cons.inj hsplit
        obtain ⟨hne, hbefore⟩ := List.forall_mem_cons.mp hbefore
        exact .inr ⟨hne, before, after, hrest, hbefore⟩
  · rintro (rfl | ⟨hne, before, after, rfl, hbefore⟩)
    · exact ⟨[], ds, rfl, by simp⟩
    · exact ⟨e :: before, after, rfl, List.forall_mem_cons.mpr ⟨hne, hbefore⟩⟩

/-- Every member of a list has an equal one that is the first of its kind. -/
theorem exists_firstIn (h : d ∈ ds) :
    ∃ e, FirstIn ds e ∧ e.dependency.identity = d.dependency.identity := by
  induction ds with
  | nil => simp at h
  | cons x ds ih =>
      by_cases hx : x.dependency.identity = d.dependency.identity
      · exact ⟨x, firstIn_cons_iff.mpr (.inl rfl), hx⟩
      · obtain rfl | hmem := List.mem_cons.mp h
        · exact absurd rfl hx
        · obtain ⟨e, he, heq⟩ := ih hmem
          exact ⟨e, firstIn_cons_iff.mpr (.inr ⟨heq ▸ hx, he⟩), heq⟩

/-! ## One pass with a set of those already seen -/

/-- The dependencies that are neither in a set nor equal to an earlier one. -/
def unseen (seen : Std.HashSet Dependency) :
    List TrackedDependency → List TrackedDependency
  | [] => []
  | d :: ds =>
    if seen.contains d.dependency then unseen seen ds
    else d :: unseen (seen.insert d.dependency) ds

/-- The set holds everything before the place that the pass has reached. -/
theorem mem_unseen_iff {seen : Std.HashSet Dependency} :
    d ∈ unseen seen ds ↔
      seen.contains d.dependency = false ∧ FirstIn ds d := by
  induction ds generalizing seen with
  | nil =>
      have hnone : ¬ FirstIn [] d := fun h => List.not_mem_nil h.mem
      simp [unseen, hnone]
  | cons x ds ih =>
      rw [unseen, firstIn_cons_iff]
      split
      next hx =>
        rw [ih]
        refine and_congr_right fun hd => ?_
        -- The set holds an equal of `x` but none of `d`.
        have hne : x.dependency.identity ≠ d.dependency.identity := by
          intro heq
          rw [Std.HashSet.contains_congr
            (Dependency.beq_iff_identity_eq.mpr heq), hd] at hx
          exact Bool.false_ne_true hx
        have hne' : d ≠ x := fun h => hne (h ▸ rfl)
        simp [hne, hne']
      next hx =>
        rw [List.mem_cons, ih, Std.HashSet.contains_insert,
          Bool.or_eq_false_iff, ← Bool.not_eq_true (_ == _),
          Dependency.beq_iff_identity_eq]
        constructor
        · rintro (rfl | ⟨⟨hne, hd⟩, hfirst⟩)
          · exact ⟨Bool.eq_false_iff.mpr hx, .inl rfl⟩
          · exact ⟨hd, .inr ⟨hne, hfirst⟩⟩
        · rintro ⟨hd, rfl | ⟨hne, hfirst⟩⟩
          · exact .inl rfl
          · exact .inr ⟨⟨hne, hd⟩, hfirst⟩

theorem unseen_eq_eraseDups (seen : Std.HashSet Dependency) :
    unseen seen ds =
      (ds.filter fun d => !seen.contains d.dependency).eraseDups := by
  induction ds generalizing seen with
  | nil => rfl
  | cons x ds ih =>
      rw [unseen]
      split
      next hx => rw [ih, List.filter_cons_of_neg (by simp [hx])]
      next hx =>
        rw [ih, List.filter_cons_of_pos (by simp [hx]), List.eraseDups_cons,
          List.filter_filter]
        congr 3
        funext d
        rw [Std.HashSet.contains_insert, Bool.not_or, BEq.comm]
        rfl

/-- The pass that starts with the empty set finds the distinct dependencies. -/
theorem unseen_empty : unseen ∅ ds = ds.eraseDups := by
  rw [unseen_eq_eraseDups]
  simp

/-- What is resolved is exactly what is the first of its kind. -/
theorem mem_inGroupOrder_iff : d ∈ inGroupOrder ds ↔ FirstIn ds d := by
  have hdistinct : d ∈ ds.eraseDups ↔ FirstIn ds d := by
    rw [← unseen_empty, mem_unseen_iff]
    simp
  simp only [inGroupOrder, List.mem_flatMap, mem_sortedDistinct, List.mem_map,
    List.mem_filter, decide_eq_true_eq]
  rw [← hdistinct]
  exact ⟨fun ⟨_, _, hd, _⟩ => hd, fun hd => ⟨_, ⟨d, hd, rfl⟩, hd, rfl⟩⟩

theorem nodup_unseen (seen : Std.HashSet Dependency) : (unseen seen ds).Nodup := by
  induction ds generalizing seen with
  | nil => exact List.nodup_nil
  | cons x ds ih =>
      rw [unseen]
      split
      next => exact ih seen
      next =>
        refine List.nodup_cons.mpr ⟨fun hx => ?_, ih _⟩
        have hseen := (mem_unseen_iff.mp hx).1
        rw [Std.HashSet.contains_insert, BEq.rfl, Bool.true_or] at hseen
        contradiction

/-- No dependency is resolved twice. -/
theorem nodup_inGroupOrder (ds : List TrackedDependency) :
    (inGroupOrder ds).Nodup := by
  have hdistinct : ds.eraseDups.Nodup := by
    rw [← unseen_empty]
    exact nodup_unseen ∅
  rw [inGroupOrder, List.nodup_flatMap]
  constructor
  · intro key _
    exact hdistinct.filter _
  · refine (ascending_sortedDistinct _).imp fun {key key'} hbelow => ?_
    intro d hd hd'
    simp only [List.mem_filter, decide_eq_true_eq] at hd hd'
    rw [← hd.2, ← hd'.2] at hbelow
    simp at hbelow

theorem map_dependency_unseen {ds' : List TrackedDependency}
    (hsame : ds.map dependency = ds'.map dependency)
    (seen : Std.HashSet Dependency) :
    (unseen seen ds).map dependency = (unseen seen ds').map dependency := by
  induction ds generalizing ds' seen with
  | nil =>
      obtain rfl : ds' = [] := List.map_eq_nil_iff.mp hsame.symm
      rfl
  | cons x ds ih =>
      obtain ⟨y, rest, rfl, hy, hrest⟩ := List.map_eq_cons_iff.mp hsame.symm
      rw [unseen, unseen, hy]
      split
      next => exact ih hrest.symm seen
      next => rw [List.map_cons, List.map_cons, hy, ih hrest.symm]

/-- What is resolved depends on the dependencies only, not on what is learnt. -/
theorem map_dependency_inGroupOrder {ds' : List TrackedDependency}
    (hsame : ds.map dependency = ds'.map dependency) :
    (inGroupOrder ds).map dependency = (inGroupOrder ds').map dependency := by
  have hgrouped : ∀ xs : List TrackedDependency,
      (inGroupOrder xs).map dependency =
        (sortedDistinct ((xs.eraseDups.map dependency).map Dependency.when)).flatMap
          fun key => (xs.eraseDups.map dependency).filter (·.when = key) := by
    intro xs
    simp only [inGroupOrder, List.map_flatMap, List.map_map, List.filter_map]
    rfl
  have hdistinct := map_dependency_unseen hsame ∅
  rw [unseen_empty, unseen_empty] at hdistinct
  rw [hgrouped, hgrouped, hdistinct]

/-! ## One distinct dependency after the other -/

/-- What a dependency contributes to the groups. -/
def contribution (d : TrackedDependency) (mode : Mode) (unresolve : List Text)
    (index : Index) : Querying (Option Text × List Text) := do
  let answer ← d.ask (d.dependency.specs mode unresolve index)
  return (d.dependency.when, answer.1)

end TrackedDependency

theorem resolveAll_eq (ds : List TrackedDependency) (mode : Mode)
    (unresolve : List Text) (index : Index) :
    resolveAll ds mode unresolve index =
      (do
        let pairs ← (TrackedDependency.inGroupOrder ds).mapM
          (·.contribution mode unresolve index)
        return SpecGroups.ofList pairs) :=
  rfl

end DevSpecs
