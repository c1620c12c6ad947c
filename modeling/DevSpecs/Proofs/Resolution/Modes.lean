import DevSpecs.Proofs.Resolution.Groups
import DevSpecs.Proofs.Resolution.Reach
import Mathlib.Tactic.Choose

/-!
# Modes compared

All modes lead to the same groups.  Without a preference every distinct
dependency hands out its own text, and the latest mode adds at most one spec
for each of them: the one that is pinned to what the index has answered.  None
is added for a dependency that declares no ranges or is left open.  Nothing is
assumed of the index here, whose answers may change from query to query.
-/

namespace DevSpecs

/-! ## One dependency -/

namespace Dependency

variable {d : Dependency} {mode : Mode} {unresolve : List Text} {index : Index}

theorem not_needsIndex_of_open
    (hopen : d.ranges ≠ [] → d.package ∈ unresolve) :
    ¬Project.needsIndex unresolve d = true := by
  intro hneeds
  obtain ⟨hranges, hclosed⟩ := Project.needsIndex_iff.mp hneeds
  have hpackage : d.package ∉ unresolve := by simpa using hclosed
  exact hpackage (hopen hranges)

theorem effectiveMode_of_not_needsIndex
    (hneeds : ¬Project.needsIndex unresolve d = true) (hranges : d.ranges ≠ []) :
    d.effectiveMode mode unresolve = .any := by
  have hopen : unresolve.contains d.package = true := by
    rw [← Bool.not_eq_false]
    intro hfalse
    exact hneeds (Project.needsIndex_iff.mpr ⟨hranges, hfalse⟩)
  rw [effectiveMode, if_pos hopen]

/-- Where the ranges stay open, a dependency hands out its text. -/
theorem specs_run_of_effectiveMode (index : Index) (s : Knowledge)
    (h : d.ranges ≠ [] → d.effectiveMode mode unresolve = .any) :
    (d.specs mode unresolve index).run s = (.ok [d.text], s) := by
  by_cases hranges : d.ranges = []
  · have htext : d.text = d.base := by simp [text, hranges]
    simp only [specs, List.isEmpty_iff, hranges, if_true, htext]
    rfl
  · have hmode := h hranges
    simp only [effectiveMode] at hmode
    simp only [specs, List.isEmpty_iff, hranges, if_false, hmode]
    rfl

theorem specs_any_run (d : Dependency) (unresolve : List Text) (index : Index)
    (s : Knowledge) :
    (d.specs .any unresolve index).run s = (.ok [d.text], s) := by
  apply specs_run_of_effectiveMode
  intro _
  exact ite_self Mode.any

def minimumSpecs (unresolve : List Text) (d : Dependency) : List Text :=
  if Project.needsIndex unresolve d then [d.minimumSpec] else [d.text]

theorem specs_minimum_run (d : Dependency) (unresolve : List Text)
    (index : Index) (s : Knowledge) :
    (d.specs .minimum unresolve index).run s =
      (.ok (d.minimumSpecs unresolve), s) := by
  rw [minimumSpecs]
  by_cases hneeds : Project.needsIndex unresolve d = true
  · obtain ⟨hranges, hclosed⟩ := Project.needsIndex_iff.mp hneeds
    simp only [specs, List.isEmpty_iff, hranges, if_false, hclosed, hneeds,
      Bool.false_eq_true, if_true]
    rfl
  · rw [if_neg hneeds]
    exact specs_run_of_effectiveMode index s
      (effectiveMode_of_not_needsIndex hneeds)

/-- A spec that is pinned to what the index answers when `s` is known. -/
def IsPin (d : Dependency) (index : Index) (s : Knowledge) (spec : Text) : Prop :=
  ∃ external latest t u,
    (d.newestExternal index).run s = (.ok external, t) ∧
      (d.newestVersion index).run t = (.ok (some latest), u) ∧
        spec = Spec.withVersion d.base (pinnedToken external latest)

/-- In the latest mode a dependency hands out its text and at most one pinned
spec. -/
theorem exists_pin_of_specs {s : Knowledge} {specs : List Text}
    (h : ((d.specs .latest unresolve index).run s).1 = .ok specs) :
    ∃ pin, (Project.needsIndex unresolve d = true → d.IsPin index s pin) ∧
      ∀ spec, spec ∈ specs ↔
        spec = d.text ∨ Project.needsIndex unresolve d = true ∧ spec = pin := by
  by_cases hneeds : Project.needsIndex unresolve d = true
  · obtain ⟨hranges, hclosed⟩ := Project.needsIndex_iff.mp hneeds
    have hlatest : d.effectiveMode .latest unresolve = .latest :=
      effectiveMode_eq_latest_iff.mpr ⟨rfl, hclosed⟩
    have hends := specs_ends d .latest unresolve index s
    generalize (d.specs .latest unresolve index).run s = r at h hends
    cases hends with
    | unconstrained hnone => exact absurd hnone hranges
    | any _ hmode => simp [hlatest] at hmode
    | minimum _ hmode => simp [hlatest] at hmode
    | externalFailed _ _ _ _ _ => contradiction
    | versionFailed _ _ _ _ _ _ _ _ => contradiction
    | latest external latest t u _ _ hexternal hversion =>
        refine ⟨_, fun _ => ⟨external, latest, t, u, hexternal, hversion, rfl⟩, ?_⟩
        intro spec
        obtain rfl := Except.ok.inj h
        simp [mem_sortedDistinct, hneeds]
  · have hrun : (d.specs .latest unresolve index).run s = (.ok [d.text], s) :=
      specs_run_of_effectiveMode index s (effectiveMode_of_not_needsIndex hneeds)
    rw [hrun] at h
    obtain rfl := Except.ok.inj h
    exact ⟨[], fun hyes => absurd hyes hneeds, by simp [hneeds]⟩

end Dependency

/-! ## What the distinct dependencies hand out -/

namespace TrackedDependency

variable {mode : Mode} {unresolve : List Text} {index : Index}

theorem specs_of_contribution {t : TrackedDependency} {history : History}
    {pair : Option Text × List Text}
    (h : ((t.contribution mode unresolve index).run history).1 = .ok pair) :
    t.dependency.when = pair.1 ∧
      ((t.dependency.specs mode unresolve index).run (t.learnt, history)).1 =
        .ok pair.2 := by
  rw [contribution, run_bind_pure_fst, ask] at h
  simp only [ExceptT.run_mk] at h
  rcases hrun : (t.dependency.specs mode unresolve index).run
    (t.learnt, history) with ⟨e | specs, learnt, after⟩
  · rw [hrun] at h
    contradiction
  · rw [hrun] at h
    obtain rfl : (t.dependency.when, specs) = pair := Except.ok.inj h
    exact ⟨rfl, rfl⟩

end TrackedDependency

namespace SpecGroups

open TrackedDependency

variable {ds : List TrackedDependency} {handed handed' : TrackedDependency → List Text}

def collect (ds : List TrackedDependency)
    (handed : TrackedDependency → List Text) : SpecGroups :=
  ofList ((inGroupOrder ds).map fun t => (t.dependency.when, handed t))

theorem map_when_collect :
    (collect ds handed).map SpecGroup.when =
      sortedDistinct ((inGroupOrder ds).map (·.dependency.when)) := by
  rw [collect, map_when_ofList, List.map_map]
  rfl

theorem mem_specs_of_mem_collect {g : SpecGroup} (hg : g ∈ collect ds handed)
    {spec : Text} :
    spec ∈ g.specs ↔
      ∃ t, FirstIn ds t ∧ t.dependency.when = g.when ∧ spec ∈ handed t := by
  rw [mem_specs_of_mem_ofList hg]
  constructor
  · rintro ⟨specs, hpair, hspec⟩
    obtain ⟨t, ht, heq⟩ := List.mem_map.mp hpair
    obtain ⟨hwhen, rfl⟩ := Prod.mk.inj heq
    exact ⟨t, mem_inGroupOrder_iff.mp ht, hwhen, hspec⟩
  · rintro ⟨t, ht, hwhen, hspec⟩
    refine ⟨handed t, List.mem_map.mpr ⟨t, mem_inGroupOrder_iff.mpr ht, ?_⟩, hspec⟩
    rw [hwhen]

theorem collect_congr (h : ∀ t, FirstIn ds t → handed t = handed' t) :
    collect ds handed = collect ds handed' := by
  refine congrArg ofList (List.map_congr_left fun t ht => ?_)
  rw [h t (mem_inGroupOrder_iff.mp ht)]

/-- What is handed out by the dependencies alone does not depend on what is
learnt. -/
theorem collect_of_map_dependency {ds' : List TrackedDependency}
    (handed : Dependency → List Text)
    (hsame : ds.map dependency = ds'.map dependency) :
    collect ds (fun t => handed t.dependency) =
      collect ds' (fun t => handed t.dependency) := by
  have hpairs : ∀ xs : List TrackedDependency,
      (inGroupOrder xs).map (fun t => (t.dependency.when, handed t.dependency)) =
        ((inGroupOrder xs).map dependency).map fun d => (d.when, handed d) := by
    intro xs
    rw [List.map_map]
    rfl
  rw [collect, collect, hpairs, hpairs, map_dependency_inGroupOrder hsame]

end SpecGroups

section Resolution

open TrackedDependency SpecGroups

variable {ds : List TrackedDependency} {mode : Mode} {unresolve : List Text}
  {index : Index}

/-- A resolution that succeeds collects what every distinct dependency hands out
at some point of it. -/
theorem exists_collect_of_resolveAll {history : History} {groups : SpecGroups}
    (h : ((resolveAll ds mode unresolve index).run history).1 = .ok groups) :
    ∃ handed, groups = collect ds handed ∧ ∀ t, FirstIn ds t → ∃ before,
      ((t.dependency.specs mode unresolve index).run (t.learnt, before)).1 =
        .ok (handed t) := by
  rw [resolveAll_eq, run_bind_pure_fst] at h
  cases hpairs : (((inGroupOrder ds).mapM
    (contribution · mode unresolve index)).run history).1 with
  | error e =>
      rw [hpairs] at h
      contradiction
  | ok pairs =>
      rw [hpairs] at h
      obtain rfl : ofList pairs = groups := Except.ok.inj h
      obtain ⟨pairOf, rfl, hpairOf⟩ :=
        exists_map_of_run_mapM (nodup_inGroupOrder ds) hpairs
      have hspecs : ∀ t ∈ inGroupOrder ds, t.dependency.when = (pairOf t).1 ∧
          ∃ before, ((t.dependency.specs mode unresolve index).run
            (t.learnt, before)).1 = .ok (pairOf t).2 := by
        intro t ht
        obtain ⟨before, hrun⟩ := hpairOf t ht
        obtain ⟨hwhen, hspecs⟩ := specs_of_contribution hrun
        exact ⟨hwhen, before, hspecs⟩
      refine ⟨fun t => (pairOf t).2, ?_, fun t ht => ?_⟩
      · refine congrArg ofList (List.map_congr_left fun t ht => ?_)
        rw [(hspecs t ht).1]
      · exact (hspecs t (mem_inGroupOrder_iff.mpr ht)).2

/-- If what is handed out is known without an index, so are the groups. -/
theorem resolveAll_eq_collect (handed : Dependency → List Text)
    (h : ∀ t ∈ ds, ∀ (index : Index) s,
      (t.dependency.specs mode unresolve index).run s =
        (.ok (handed t.dependency), s)) (index : Index) (history : History) :
    (resolveAll ds mode unresolve index).run history =
      (.ok (collect ds fun t => handed t.dependency), history) := by
  obtain ⟨groups, hgroups⟩ := resolveAll_quiet fun t ht =>
    ⟨handed t.dependency, fun index history => h t ht index (t.learnt, history)⟩
  have hrun := hgroups index history
  obtain ⟨handed', rfl, hhanded'⟩ :=
    exists_collect_of_resolveAll (congrArg Prod.fst hrun)
  have hsame : collect ds handed' = collect ds fun t => handed t.dependency := by
    refine collect_congr fun t ht => ?_
    obtain ⟨before, hspecs⟩ := hhanded' t ht
    rw [h t ht.mem index (t.learnt, before)] at hspecs
    exact (Except.ok.inj hspecs).symm
  rw [hrun, hsame]

/-! ## The three modes -/

/-- The groups `pinned` are the groups `plain` with at most one further spec for
each distinct dependency that declares ranges and is not left open.  It is the
spec that is pinned to what the index answers about this dependency. -/
structure AddsPins (ds : List TrackedDependency) (unresolve : List Text)
    (index : Index) (plain pinned : SpecGroups) : Prop where
  keys_eq : pinned.map SpecGroup.when = plain.map SpecGroup.when
  mem_of_mem : ∀ g ∈ pinned, ∀ g' ∈ plain, g.when = g'.when →
    ∀ spec ∈ g'.specs, spec ∈ g.specs
  exists_pin : ∃ pin : TrackedDependency → Text,
    ∀ g ∈ pinned, ∀ g' ∈ plain, g.when = g'.when →
      ∀ spec ∈ g.specs, spec ∉ g'.specs →
        ∃ t, FirstIn ds t ∧ t.dependency.when = g.when ∧
          t.dependency.ranges ≠ [] ∧ t.dependency.package ∉ unresolve ∧
            spec = pin t ∧
              ∃ before, t.dependency.IsPin index (t.learnt, before) (pin t)

theorem addsPins_collect {handed : TrackedDependency → List Text}
    (h : ∀ t, FirstIn ds t → ∃ before,
      ((t.dependency.specs .latest unresolve index).run (t.learnt, before)).1 =
        .ok (handed t)) :
    AddsPins ds unresolve index (collect ds fun t => [t.dependency.text])
      (collect ds handed) := by
  have hpins : ∀ t, FirstIn ds t → ∃ pin,
      (Project.needsIndex unresolve t.dependency = true →
        ∃ before, t.dependency.IsPin index (t.learnt, before) pin) ∧
      ∀ spec, spec ∈ handed t ↔ spec = t.dependency.text ∨
        Project.needsIndex unresolve t.dependency = true ∧ spec = pin := by
    intro t ht
    obtain ⟨before, hspecs⟩ := h t ht
    obtain ⟨pin, hpin, hmem⟩ := Dependency.exists_pin_of_specs hspecs
    exact ⟨pin, fun hneeds => ⟨before, hpin hneeds⟩, hmem⟩
  choose! pin hpin hmem using hpins
  refine ⟨by rw [map_when_collect, map_when_collect], ?_, pin, ?_⟩
  · intro g hg g' hg' hwhen spec hspec
    obtain ⟨t, ht, htwhen, htext⟩ := (mem_specs_of_mem_collect hg').mp hspec
    refine (mem_specs_of_mem_collect hg).mpr ⟨t, ht, htwhen.trans hwhen.symm, ?_⟩
    exact (hmem t ht spec).mpr (.inl (List.mem_singleton.mp htext))
  · intro g hg g' hg' hwhen spec hspec hnew
    obtain ⟨t, ht, htwhen, hhanded⟩ := (mem_specs_of_mem_collect hg).mp hspec
    rcases (hmem t ht spec).mp hhanded with htext | ⟨hneeds, hspin⟩
    · refine absurd ((mem_specs_of_mem_collect hg').mpr ?_) hnew
      exact ⟨t, ht, htwhen.trans hwhen, List.mem_singleton.mpr htext⟩
    · obtain ⟨hranges, hclosed⟩ := Project.needsIndex_iff.mp hneeds
      have hpackage : t.dependency.package ∉ unresolve := by simpa using hclosed
      exact ⟨t, ht, htwhen, hranges, hpackage, hspin, hpin t ht hneeds⟩

/-- If everything is left open, every mode behaves as if there were no
preference. -/
theorem resolveAll_eq_collect_of_open
    (hopen : ∀ t ∈ ds, t.dependency.ranges ≠ [] →
      t.dependency.package ∈ unresolve)
    (mode : Mode) (index : Index) (history : History) :
    (resolveAll ds mode unresolve index).run history =
      (.ok (collect ds fun t => [t.dependency.text]), history) := by
  apply resolveAll_eq_collect fun d => [d.text]
  intro t ht index s
  have hneeds := Dependency.not_needsIndex_of_open (hopen t ht)
  apply Dependency.specs_run_of_effectiveMode
  exact Dependency.effectiveMode_of_not_needsIndex hneeds

/-- All modes lead to the same predicates.  Neither the index nor what has been
learnt matters to the any mode and the minimum mode, and the groups of the latest
mode are those of the any mode with pinned specs added.  If every dependency that
declares ranges is left open, the modes agree. -/
theorem modes_are_nested (ds : List TrackedDependency) (unresolve : List Text) :
    ∃ anyGroups minimumGroups : SpecGroups,
      (∀ ds' : List TrackedDependency,
        ds'.map dependency = ds.map dependency → ∀ index history,
          (resolveAll ds' .any unresolve index).run history =
              (.ok anyGroups, history) ∧
            (resolveAll ds' .minimum unresolve index).run history =
              (.ok minimumGroups, history)) ∧
      minimumGroups.map SpecGroup.when = anyGroups.map SpecGroup.when ∧
      (∀ index history groups,
        ((resolveAll ds .latest unresolve index).run history).1 = .ok groups →
          AddsPins ds unresolve index anyGroups groups) ∧
      ((∀ t ∈ ds, t.dependency.ranges ≠ [] →
          t.dependency.package ∈ unresolve) →
        minimumGroups = anyGroups ∧ ∀ index history,
          (resolveAll ds .latest unresolve index).run history =
            (.ok anyGroups, history)) := by
  refine ⟨collect ds fun t => [t.dependency.text],
    collect ds fun t => t.dependency.minimumSpecs unresolve, ?_, ?_, ?_, ?_⟩
  · intro ds' hsame index history
    rw [← collect_of_map_dependency (fun d => [d.text]) hsame,
      ← collect_of_map_dependency (Dependency.minimumSpecs unresolve) hsame]
    constructor
    · apply resolveAll_eq_collect fun d => [d.text]
      intro t _ index s
      exact t.dependency.specs_any_run unresolve index s
    · apply resolveAll_eq_collect (Dependency.minimumSpecs unresolve)
      intro t _ index s
      exact t.dependency.specs_minimum_run unresolve index s
  · rw [map_when_collect, map_when_collect]
  · intro index history groups hgroups
    obtain ⟨handed, rfl, hhanded⟩ := exists_collect_of_resolveAll hgroups
    exact addsPins_collect hhanded
  · intro hopen
    refine ⟨collect_congr fun t ht => ?_, ?_⟩
    · exact if_neg (Dependency.not_needsIndex_of_open (hopen t ht.mem))
    · exact resolveAll_eq_collect_of_open hopen .latest

/-- One package is pinned, the other one is left open. -/
theorem modes_are_nested_two_packages :
    ∃ (ds : List TrackedDependency) (index : Index) (plain pinned : SpecGroups),
      ds.map (·.dependency.text) = ["foo @1:".toList, "bar @2:".toList] ∧
      plain = [⟨none, ["bar @2:".toList, "foo @1:".toList]⟩] ∧
      pinned = [⟨none, ["bar @2:".toList, "foo @1:".toList, "foo @3:".toList]⟩] ∧
      ((resolveAll ds .latest ["bar".toList] index).run []).1 = .ok pinned ∧
      AddsPins ds ["bar".toList] index plain pinned := by
  let newest : Version := ⟨"3", by decide, by decide⟩
  let index : Index := ⟨fun _ _ => .ok newest, fun _ _ => .ok []⟩
  let from1 : VersionRange := ⟨some ⟨"1", by decide, by decide⟩, none⟩
  let from2 : VersionRange := ⟨some ⟨"2", by decide, by decide⟩, none⟩
  let ds : List TrackedDependency :=
    [.fresh ⟨"foo", "foo", [from1], none⟩, .fresh ⟨"bar", "bar", [from2], none⟩]
  obtain ⟨pinned, hpinned, hspecs⟩ := exists_ok_of_any
    ((resolveAll ds .latest ["bar".toList] index).run []).1
    (· == [⟨none, ["bar @2:".toList, "foo @1:".toList, "foo @3:".toList]⟩])
    (by decide +kernel)
  obtain ⟨plain, hplain, htexts⟩ := exists_ok_of_any
    ((resolveAll ds .any ["bar".toList] index).run []).1
    (· == [⟨none, ["bar @2:".toList, "foo @1:".toList]⟩]) (by decide +kernel)
  obtain ⟨anyGroups, _, hrun, -, hlatest, -⟩ :=
    modes_are_nested ds ["bar".toList]
  have hany := congrArg Prod.fst (hrun ds rfl index []).1
  obtain rfl : plain = anyGroups := Except.ok.inj (hplain.symm.trans hany)
  exact ⟨ds, index, plain, pinned, rfl, eq_of_beq htexts, eq_of_beq hspecs,
    hpinned, hlatest index [] pinned hpinned⟩

end Resolution

end DevSpecs
