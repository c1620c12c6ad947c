import DevSpecs.Proofs.Dependency.Faithful
import DevSpecs.Proofs.Dependency.Rendering
import DevSpecs.Proofs.Resolution.Distinct
import DevSpecs.Proofs.Version.Walk

/-!
# Respelled dependencies

Equal dependencies may spell their versions differently.  An index is asked the
same about them, their ranges hold the same versions, and the walk along the
ranges ends at equal versions.  So they hand out specs, or fail, alike; the specs
differ in nothing but the spelling of versions.
-/

namespace DevSpecs

/-! ## Ranges -/

namespace VersionRange

/-- The bounds of a range, whatever their spelling. -/
abbrev Bounds := Option (List Segment) × Option (List Segment)

/-- The lower bound is at or below `v`. -/
def Bounds.startBy (v : Version) (bounds : Bounds) : Bool :=
  bounds.1.all fun lower => (compare lower v.segments).isLE

/-- The upper bound is at or above `v`. -/
def Bounds.reach (v : Version) (bounds : Bounds) : Bool :=
  bounds.2.all fun upper => (compare v.segments upper).isLE

theorem startsBy_eq (v : Version) : startsBy v = Bounds.startBy v ∘ segments := by
  funext r
  rw [startsBy, Function.comp, Bounds.startBy, segments, Option.all_map]
  congr 1
  funext lower
  exact Bool.eq_iff_iff.mpr decide_eq_true_iff

theorem reaches_eq (v : Version) : reaches v = Bounds.reach v ∘ segments := by
  funext r
  rw [reaches, Function.comp, Bounds.reach, segments, Option.all_map]
  congr 1
  funext upper
  exact Bool.eq_iff_iff.mpr decide_eq_true_iff

variable {ranges ranges' : List VersionRange}
  (h : ranges.map segments = ranges'.map segments)

include h

theorem newestInAll?_congr :
    newestInAll? ranges = newestInAll? ranges' := by
  have hall : ∀ (ranges : List VersionRange) v, ranges.all (·.contains v) =
      (ranges.map segments).all fun b => Bounds.startBy v b && Bounds.reach v b := by
    intro ranges v
    rw [List.all_map]
    congr 1
    funext r
    change (startsBy v r && reaches v r) = _
    rw [startsBy_eq, reaches_eq]
    rfl
  funext versions
  simp only [newestInAll?, hall, h]

/-- The walk ends at equal versions. -/
theorem newestUpTo?_congr (limit : Version) :
    (newestUpTo? limit ranges).map Version.segments =
      (newestUpTo? limit ranges').map Version.segments := by
  have hvisited : (visited limit ranges).map segments =
      (visited limit ranges').map segments := by
    rw [visited, visited, startsBy_eq, ← List.takeWhile_map, h,
      List.takeWhile_map]
  have hreach : (visited limit ranges).any (reaches limit) =
      (visited limit ranges').any (reaches limit) := by
    rw [reaches_eq, ← List.any_map, hvisited, List.any_map]
  have hlast : ((visited limit ranges).getLast?.elim none upper).map
      Version.segments =
        ((visited limit ranges').getLast?.elim none upper).map
          Version.segments := by
    have hends := congrArg List.getLast? hvisited
    have hupper : ∀ last : Option VersionRange,
        (last.elim none upper).map Version.segments =
          (last.map segments).elim none Prod.snd := by
      intro last
      cases last <;> rfl
    rw [List.getLast?_map, List.getLast?_map] at hends
    rw [hupper, hupper, hends]
  rw [newestUpTo?, newestUpTo?, walkUpTo_eq, walkUpTo_eq, hreach]
  split
  · rfl
  · exact hlast

end VersionRange

/-! ## Specs -/

/-- Two specs are the same up to the spelling of the versions in a token. -/
inductive Respelled : Text → Text → Prop
  | same (spec : Text) : Respelled spec spec
  | token (base : Text) (items items' : List Spec.Item)
      (hranges : items.map (·.range.segments) = items'.map (·.range.segments)) :
      Respelled (Spec.withVersion base ('@' :: Spec.Item.listText items))
        (Spec.withVersion base ('@' :: Spec.Item.listText items'))

theorem Respelled.symm {spec spec' : Text} (h : Respelled spec spec') :
    Respelled spec' spec := by
  cases h with
  | same => exact .same _
  | token base items items' hranges => exact .token base items' items hranges.symm

namespace Dependency

variable {d e : Dependency} {index : Index} {history : History}
  (h : d.identity = e.identity)

include h

theorem ranges_eq_nil_iff_of_identity_eq : d.ranges = [] ↔ e.ranges = [] := by
  have hranges := segments_eq_of_identity_eq h
  rw [← List.map_eq_nil_iff (f := VersionRange.segments), hranges,
    List.map_eq_nil_iff]

theorem effectiveMode_of_identity_eq (mode : Mode) (unresolve : List Text) :
    d.effectiveMode mode unresolve = e.effectiveMode mode unresolve := by
  have hpackage := package_eq_of_identity_eq h
  rw [effectiveMode, effectiveMode, hpackage]

/-! ### Answers of an index -/

theorem freshOutcome_externals_of_identity_eq :
    d.freshOutcome index history .externals =
      e.freshOutcome index history .externals := by
  have hpackage := package_eq_of_identity_eq h
  have hranges := segments_eq_of_identity_eq h
  simp only [freshOutcome, hpackage, VersionRange.newestInAll?_congr hranges]

/-- Equal dependencies have equal newest versions. -/
theorem freshOutcome_latest_of_identity_eq {v : Version}
    (hlatest : d.freshOutcome index history .latest = .ok (some v)) :
    ∃ w, e.freshOutcome index history .latest = .ok (some w) ∧
      v.segments = w.segments := by
  have hpackage := package_eq_of_identity_eq h
  have hranges := segments_eq_of_identity_eq h
  have hd : d.ranges ≠ [] := by
    intro hnone
    simp [freshOutcome, hnone] at hlatest
  have he : e.ranges ≠ [] := mt (ranges_eq_nil_iff_of_identity_eq h).mpr hd
  simp only [freshOutcome, hd, he, if_false, hpackage] at hlatest ⊢
  cases hquery : index.latest history e.package with
  | error cause => simp [hquery] at hlatest
  | ok newest =>
      have hwalk := VersionRange.newestUpTo?_congr hranges newest
      cases hv : VersionRange.newestUpTo? newest d.ranges with
      | none => simp [hquery, hv] at hlatest
      | some v' =>
          obtain rfl : v' = v := by simpa [hquery, hv] using hlatest
          cases hw : VersionRange.newestUpTo? newest e.ranges with
          | none => simp [hv, hw] at hwalk
          | some w => exact ⟨w, by simp [hw], by simpa [hv, hw] using hwalk⟩

/-! ### Specs for a mode -/

theorem text_respelled : Respelled d.text e.text := by
  have hbase := base_eq_of_identity_eq h
  by_cases hd : d.ranges = []
  · have he := (ranges_eq_nil_iff_of_identity_eq h).mp hd
    simp only [text, hd, he, List.isEmpty_nil, if_true, hbase]
    exact .same e.base
  · have he : e.ranges ≠ [] := mt (ranges_eq_nil_iff_of_identity_eq h).mpr hd
    rw [text_eq_withVersion hd, text_eq_withVersion he, hbase]
    refine .token e.base _ _ ?_
    rw [List.map_map, List.map_map]
    exact segments_eq_of_identity_eq h

theorem minimumSpec_respelled : Respelled d.minimumSpec e.minimumSpec := by
  have hbase := base_eq_of_identity_eq h
  have hminimum : d.minimum?.map Version.segments =
      e.minimum?.map Version.segments := by
    have hranges := segments_eq_of_identity_eq h
    have hfirst := congrArg (fun bounds => bounds.head?.bind Prod.fst) hranges
    rw [List.head?_map, List.head?_map, Option.bind_map, Option.bind_map]
      at hfirst
    rw [minimum?, minimum?, Option.map_bind, Option.map_bind]
    exact hfirst
  cases hd : d.minimum? with
  | none =>
      have he : e.minimum? = none := by simpa [hd] using hminimum.symm
      simp only [minimumSpec, hd, he, hbase]
      exact .same _
  | some v =>
      obtain ⟨w, he, hvw⟩ : ∃ w, e.minimum? = some w ∧
          w.segments = v.segments := by simpa [hd] using hminimum.symm
      rw [minimumSpec_eq_withVersion hd, minimumSpec_eq_withVersion he, hbase]
      refine .token e.base _ _ ?_
      simp [Spec.Item.ofVersion, VersionRange.exactly, VersionRange.segments, hvw]

theorem pinned_respelled (external : Option Version) {v w : Version}
    (hvw : v.segments = w.segments) :
    Respelled (Spec.withVersion d.base (pinnedToken external v))
      (Spec.withVersion e.base (pinnedToken external w)) := by
  have hbase := base_eq_of_identity_eq h
  rw [pinnedToken_eq, pinnedToken_eq, hbase]
  refine .token e.base _ _ ?_
  simp [pinnedItems, Spec.Item.ofRange, VersionRange.segments, hvw]

/-- Equal dependencies hand out the same specs up to spelling, or none. -/
theorem plainSpecs_respelled {mode : Mode} {unresolve specs : List Text}
    (hspecs : d.plainSpecs mode unresolve index = .ok specs) :
    ∃ specs', e.plainSpecs mode unresolve index = .ok specs' ∧
      ∀ spec ∈ specs, ∃ spec' ∈ specs', Respelled spec spec' := by
  have hmode := effectiveMode_of_identity_eq h mode unresolve
  by_cases hd : d.ranges = []
  · have he := (ranges_eq_nil_iff_of_identity_eq h).mp hd
    have hbase := base_eq_of_identity_eq h
    simp only [plainSpecs, hd, he, if_true, hbase] at hspecs ⊢
    exact ⟨specs, hspecs, fun spec hspec => ⟨spec, hspec, .same spec⟩⟩
  · have he : e.ranges ≠ [] := mt (ranges_eq_nil_iff_of_identity_eq h).mpr hd
    have hone : ∀ {spec spec'}, Respelled spec spec' →
        ∀ s ∈ [spec], ∃ s' ∈ [spec'], Respelled s s' := by
      intro spec spec' hrespelled s hs
      obtain rfl := List.mem_singleton.mp hs
      exact ⟨spec', List.mem_singleton.mpr rfl, hrespelled⟩
    cases heffective : e.effectiveMode mode unresolve with
    | any =>
        simp only [plainSpecs, hd, he, if_false, hmode, heffective] at hspecs ⊢
        obtain rfl := Except.ok.inj hspecs
        exact ⟨_, rfl, hone (text_respelled h)⟩
    | minimum =>
        simp only [plainSpecs, hd, he, if_false, hmode, heffective] at hspecs ⊢
        obtain rfl := Except.ok.inj hspecs
        exact ⟨_, rfl, hone (minimumSpec_respelled h)⟩
    | latest =>
        obtain ⟨external, v, hexternal, hv, rfl⟩ :=
          (plainSpecs_latest_eq_ok_iff hd (hmode.trans heffective)).mp hspecs
        obtain ⟨w, hw, hvw⟩ := freshOutcome_latest_of_identity_eq h hv
        rw [freshOutcome_externals_of_identity_eq h] at hexternal
        refine ⟨_, (plainSpecs_latest_eq_ok_iff he heffective).mpr
          ⟨external, w, hexternal, hw, rfl⟩, fun spec hspec => ?_⟩
        rw [mem_sortedDistinct, List.mem_cons, List.mem_singleton] at hspec
        rcases hspec with rfl | rfl
        · exact ⟨e.text, mem_sortedDistinct.mpr (by simp), text_respelled h⟩
        · exact ⟨_, mem_sortedDistinct.mpr (by simp),
            pinned_respelled h external hvw⟩

/-- Equal dependencies hand out specs, or fail, alike. -/
theorem plainSpecs_endsAlike (mode : Mode) (unresolve : List Text)
    (index : Index) :
    EndsAlike (Matched Respelled) (d.plainSpecs mode unresolve index)
      (e.plainSpecs mode unresolve index) := by
  refine .of_forall (fun specs hspecs => ?_) fun specs' hspecs' => ?_
  · obtain ⟨specs', hspecs', hright⟩ := plainSpecs_respelled h hspecs
    refine ⟨specs', hspecs', hright, fun spec' hspec' => ?_⟩
    obtain ⟨_, hagain, hleft⟩ := plainSpecs_respelled h.symm hspecs'
    obtain rfl := Except.ok.inj (hspecs.symm.trans hagain)
    obtain ⟨spec, hspec, hrespelled⟩ := hleft spec' hspec'
    exact ⟨spec, hspec, hrespelled.symm⟩
  · obtain ⟨specs, hspecs, -⟩ := plainSpecs_respelled h.symm hspecs'
    exact ⟨specs, hspecs⟩

end Dependency
end DevSpecs
