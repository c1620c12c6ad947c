import DevSpecs.Proofs.Resolution.Ahead

/-!
# What an index is asked about

A resolution asks its index only about packages of dependencies that declare
ranges and are not left open, and in other modes than the latest it asks
nothing.  So two indexes that agree on those packages lead to the same outcome.
-/

namespace DevSpecs

/-- Two indexes give the same answers about some packages, after any history. -/
structure Index.AgreeOn (packages : List Text) (i j : Index) : Prop where
  latest : ∀ package ∈ packages, ∀ history,
    i.latest history package = j.latest history package
  externals : ∀ package ∈ packages, ∀ history,
    i.externals history package = j.externals history package

/-- For fixed indexes it is enough to compare their first answers. -/
theorem Index.Fixed.agreeOn {packages : List Text} {i j : Index}
    (hi : i.Fixed) (hj : j.Fixed)
    (hfirst : ∀ package ∈ packages, i.latest [] package = j.latest [] package ∧
      i.externals [] package = j.externals [] package) :
    Index.AgreeOn packages i j where
  latest package hmem history := by
    rw [hi.1, hj.1, (hfirst package hmem).1]
  externals package hmem history := by
    rw [hi.2, hj.2, (hfirst package hmem).2]

/-- The packages of the dependencies that declare ranges and are not left
open. -/
def packagesAsked (unresolve : List Text) (ds : List Dependency) : List Text :=
  (ds.filter (Project.needsIndex unresolve)).map Dependency.package

theorem Index.AgreeOn.of_mem {unresolve : List Text} {ds : List Dependency}
    {d : Dependency} {i j : Index}
    (h : Index.AgreeOn (packagesAsked unresolve ds) i j) (hd : d ∈ ds)
    (hneeds : Project.needsIndex unresolve d = true) :
    Index.AgreeOn [d.package] i j := by
  have hmem : d.package ∈ packagesAsked unresolve ds :=
    List.mem_map_of_mem (List.mem_filter.mpr ⟨hd, hneeds⟩)
  constructor
  · intro package hpackage
    obtain rfl := List.mem_singleton.mp hpackage
    exact h.latest _ hmem
  · intro package hpackage
    obtain rfl := List.mem_singleton.mp hpackage
    exact h.externals _ hmem

/-! ## One dependency -/

namespace Dependency

variable {d : Dependency} {mode : Mode} {unresolve : List Text} {i j : Index}

theorem newestVersion_congr (h : Index.AgreeOn [d.package] i j) :
    d.newestVersion i = d.newestVersion j := by
  have hlatest := h.latest d.package (List.mem_singleton.mpr rfl)
  simp only [newestVersion, hlatest]

theorem newestExternal_congr (h : Index.AgreeOn [d.package] i j) :
    d.newestExternal i = d.newestExternal j := by
  have hexternals := h.externals d.package (List.mem_singleton.mpr rfl)
  simp only [newestExternal, hexternals]

/-- Whether a dependency asks its index when its specs are wanted. -/
def AsksFor (d : Dependency) (mode : Mode) (unresolve : List Text) : Prop :=
  mode = .latest ∧ Project.needsIndex unresolve d = true

theorem effectiveMode_eq_latest_iff :
    d.effectiveMode mode unresolve = .latest ↔
      mode = .latest ∧ unresolve.contains d.package = false := by
  rw [effectiveMode]
  cases unresolve.contains d.package <;> simp

/-- Specs for which the index is not needed come without a query. -/
theorem specs_quiet (h : ¬d.AsksFor mode unresolve) :
    ∃ specs, ∀ index s,
      (d.specs mode unresolve index).run s = (.ok specs, s) := by
  by_cases hranges : d.ranges = []
  · refine ⟨[d.base], fun index s => ?_⟩
    simp only [specs, List.isEmpty_iff, hranges, if_true]
    rfl
  · have hmode : d.effectiveMode mode unresolve ≠ .latest := by
      rw [Ne, effectiveMode_eq_latest_iff]
      rintro ⟨hlatest, hopen⟩
      exact h ⟨hlatest, Project.needsIndex_iff.mpr ⟨hranges, hopen⟩⟩
    simp only [specs, List.isEmpty_iff, hranges, if_false]
    simp only [effectiveMode] at hmode
    split
    · exact ⟨[d.text], fun index s => rfl⟩
    · exact ⟨[d.minimumSpec], fun index s => rfl⟩
    · next hlatest => exact absurd hlatest hmode

theorem specs_congr
    (h : d.AsksFor mode unresolve → Index.AgreeOn [d.package] i j) :
    d.specs mode unresolve i = d.specs mode unresolve j := by
  by_cases hasks : d.AsksFor mode unresolve
  · have hagree := h hasks
    simp only [specs, newestExternal_congr hagree, newestVersion_congr hagree]
  · obtain ⟨specs, hspecs⟩ := specs_quiet hasks
    funext s
    exact (hspecs i s).trans (hspecs j s).symm

end Dependency

/-! ## All dependencies -/

section Resolution

variable {ds : List TrackedDependency} {mode : Mode} {unresolve : List Text}
  {i j : Index}

/-- The specs of a dependency are known without an index. -/
def TrackedDependency.Quiet (mode : Mode) (unresolve : List Text)
    (t : TrackedDependency) : Prop :=
  ∃ specs, ∀ index history,
    (t.dependency.specs mode unresolve index).run (t.learnt, history) =
      (.ok specs, t.learnt, history)

/-- If no dependency needs an index, a resolution sends no query and cannot
fail. -/
theorem resolveAll_quiet (h : ∀ t ∈ ds, t.Quiet mode unresolve) :
    ∃ groups, ∀ index history,
      (resolveAll ds mode unresolve index).run history =
        (.ok groups, history) := by
  have hsteps : ∀ t ∈ TrackedDependency.inGroupOrder ds,
      ∃ pair, ∀ (index : Index) (history : History),
        (t.contribution mode unresolve index).run history =
          (.ok pair, history) := by
    intro t ht
    obtain ⟨specs, hspecs⟩ :=
      h t (TrackedDependency.mem_inGroupOrder_iff.mp ht).mem
    refine ⟨(t.dependency.when, specs), fun index history => ?_⟩
    rw [TrackedDependency.contribution, run_bind, TrackedDependency.ask]
    simp only [ExceptT.run_mk, hspecs]
    rfl
  obtain ⟨pairs, hpairs⟩ := exists_run_mapM_of_quiet hsteps
  refine ⟨SpecGroups.ofList pairs, fun index history => ?_⟩
  rw [resolveAll_eq, run_bind, hpairs]
  rfl

theorem resolveAll_congr
    (h : ∀ t ∈ ds, t.dependency.AsksFor mode unresolve →
      Index.AgreeOn [t.dependency.package] i j) :
    resolveAll ds mode unresolve i = resolveAll ds mode unresolve j := by
  rw [resolveAll_eq, resolveAll_eq]
  congr 1
  refine mapM_congr_left fun t ht => ?_
  have hmem := (TrackedDependency.mem_inGroupOrder_iff.mp ht).mem
  rw [TrackedDependency.contribution, TrackedDependency.contribution,
    Dependency.specs_congr (h t hmem)]

/-- Without a query in sight, every resolution goes the same way. -/
theorem resolveAll_of_ne_latest (ds : List TrackedDependency)
    (unresolve : List Text) (hmode : mode ≠ .latest) :
    ∃ groups, ∀ index history,
      (resolveAll ds mode unresolve index).run history =
        (.ok groups, history) := by
  apply resolveAll_quiet
  intro t _
  have hnot : ¬t.dependency.AsksFor mode unresolve := fun h => hmode h.1
  obtain ⟨specs, hspecs⟩ := Dependency.specs_quiet hnot
  exact ⟨specs, fun index history => hspecs index (t.learnt, history)⟩

end Resolution

/-! ## Projects -/

namespace Project

/-- The mode in which a request is carried out. -/
def modeFor (p : Project) (mode : Option Mode) : Mode :=
  mode.getD p.config.mode

/-- The packages that a request leaves open. -/
def leftOpen (p : Project) (unresolve : List Text) : List Text :=
  sortedDistinct (p.config.unresolve ++ unresolve)

section Ahead

variable {ds : List Dependency} {mode : Mode} {unresolve : List Text}
  {i j index : Index}

theorem askAhead_congr
    (h : Index.AgreeOn (packagesAsked unresolve ds) i j) :
    askAhead ds unresolve i = askAhead ds unresolve j := by
  refine mapM_congr_left fun d hd => ?_
  by_cases hneeds : needsIndex unresolve d = true
  · have hagree := h.of_mem hd hneeds
    simp only [consult, Dependency.newestExternal_congr hagree,
      Dependency.newestVersion_congr hagree]
  · simp only [hneeds]
    rfl

theorem resolveAll_congr_of_dependencies {tracked : List TrackedDependency}
    (htracked : tracked.map TrackedDependency.dependency = ds)
    (h : mode = .latest → Index.AgreeOn (packagesAsked unresolve ds) i j) :
    resolveAll tracked mode unresolve i =
      resolveAll tracked mode unresolve j := by
  refine resolveAll_congr fun t ht hasks => ?_
  have hmem : t.dependency ∈ ds := htracked ▸ List.mem_map_of_mem ht
  exact (h hasks.1).of_mem hmem hasks.2

theorem resolveAhead_congr (history : History)
    (h : mode = .latest → Index.AgreeOn (packagesAsked unresolve ds) i j) :
    (resolveAhead ds mode unresolve i).run history =
      (resolveAhead ds mode unresolve j).run history := by
  by_cases hmode : mode = .latest
  · simp only [resolveAhead, hmode, if_true, askAhead_congr (h hmode)]
    rw [run_bind, run_bind]
    have hends := askAhead_ends ds unresolve j history
    generalize (askAhead ds unresolve j).run history = r at hends
    cases hends with
    | stopped => rfl
    | done tracked _ hdependencies _ =>
        dsimp only
        rw [resolveAll_congr_of_dependencies hdependencies fun _ => h hmode]
  · simp only [resolveAhead, hmode, if_false]
    have hcongr := resolveAll_congr_of_dependencies
      (TrackedDependency.map_dependency_fresh ds) h
    exact congrArg (·.run history) hcongr

end Ahead

/-- A request resolves the declared dependencies, and touches nothing but the
history of queries. -/
theorem resolve_run (p : Project) (mode : Option Mode) (unresolve : List Text)
    (session : Session) :
    (p.resolve mode unresolve).run session =
      match p.config.dependencies with
      | .error e => (.error (.config e), session)
      | .ok ds =>
        match (resolveAhead ds (p.modeFor mode) (p.leftOpen unresolve)
          (p.index session.files)).run session.history with
        | (.error e, history) => (.error (.resolve e), { session with history })
        | (.ok groups, history) =>
          (.ok ⟨p.modeFor mode, p.leftOpen unresolve, groups⟩,
            { session with history }) := by
  rw [resolve, run_bind, orFail]
  cases p.config.dependencies with
  | error e => rfl
  | ok ds =>
      change ((get >>= _ : Acting Resolution).run session) = _
      rw [run_bind, run_get]
      dsimp only
      rw [run_bind, querying]
      simp only [ExceptT.run_mk]
      rcases hrun : (resolveAhead ds (p.modeFor mode) (p.leftOpen unresolve)
        (p.index session.files)).run session.history with ⟨e | groups, history⟩
      · simp only [modeFor, leftOpen] at hrun
        simp only [hrun]
        rfl
      · simp only [modeFor, leftOpen] at hrun
        simp only [hrun]
        rfl

variable {p q : Project}

theorem resolve_congr (mode : Option Mode) (unresolve : List Text)
    (session : Session) (hconfig : p.config = q.config)
    (h : ∀ ds, p.config.dependencies = .ok ds → p.modeFor mode = .latest →
      Index.AgreeOn (packagesAsked (p.leftOpen unresolve) ds)
        (p.index session.files) (q.index session.files)) :
    (p.resolve mode unresolve).run session =
      (q.resolve mode unresolve).run session := by
  have hmode : p.modeFor mode = q.modeFor mode := by
    rw [modeFor, modeFor, hconfig]
  have hopen : p.leftOpen unresolve = q.leftOpen unresolve := by
    rw [leftOpen, leftOpen, hconfig]
  rw [resolve_run, resolve_run, ← hmode, ← hopen, ← hconfig]
  cases hds : p.config.dependencies with
  | error e => rfl
  | ok ds =>
      dsimp only
      rw [resolveAhead_congr session.history (h ds hds)]

/-- In other modes than the latest a request leaves everything as it is. -/
theorem resolve_run_snd_of_ne_latest (mode : Option Mode)
    (unresolve : List Text) (session : Session)
    (hmode : p.modeFor mode ≠ .latest) :
    ((p.resolve mode unresolve).run session).2 = session := by
  rw [resolve_run]
  cases p.config.dependencies with
  | error e => rfl
  | ok ds =>
      obtain ⟨groups, hgroups⟩ := resolveAll_of_ne_latest
        (ds.map TrackedDependency.fresh) (p.leftOpen unresolve) hmode
      have hahead : (resolveAhead ds (p.modeFor mode) (p.leftOpen unresolve)
          (p.index session.files)).run session.history =
            (.ok groups, session.history) := by
        simp only [resolveAhead, hmode, if_false]
        exact hgroups (p.index session.files) session.history
      simp only [hahead]

end Project

/-- What a resolution answers, and which queries it sends, depends only on the
answers of the index about the packages that it may ask about.  In other modes
than the latest it does not depend on the index, which is sent no query. -/
theorem outcome_depends_on_packagesAsked :
    (∀ ds mode unresolve i j history,
      (mode = .latest →
        Index.AgreeOn
          (packagesAsked unresolve (ds.map TrackedDependency.dependency)) i j) →
        (resolveAll ds mode unresolve i).run history =
          (resolveAll ds mode unresolve j).run history) ∧
    (∀ ds mode unresolve index history, mode ≠ .latest →
      ((resolveAll ds mode unresolve index).run history).2 = history) ∧
    (∀ (p q : Project) mode unresolve session, p.config = q.config →
      (∀ ds, p.config.dependencies = .ok ds → p.modeFor mode = .latest →
        Index.AgreeOn (packagesAsked (p.leftOpen unresolve) ds)
          (p.index session.files) (q.index session.files)) →
        (p.resolve mode unresolve).run session =
          (q.resolve mode unresolve).run session) ∧
    ∀ (p : Project) mode unresolve session, p.modeFor mode ≠ .latest →
      ((p.resolve mode unresolve).run session).2 = session := by
  refine ⟨?_, ?_, ?_, ?_⟩
  · intro ds mode unresolve i j history hagree
    rw [Project.resolveAll_congr_of_dependencies rfl hagree]
  · intro ds mode unresolve index history hmode
    obtain ⟨groups, hgroups⟩ := resolveAll_of_ne_latest ds unresolve hmode
    rw [hgroups]
  · intro p q mode unresolve session hconfig hagree
    exact Project.resolve_congr mode unresolve session hconfig hagree
  · intro p mode unresolve session hmode
    exact Project.resolve_run_snd_of_ne_latest mode unresolve session hmode

/-- Of two indexes, one knows nothing about a package that is left open. -/
theorem outcome_depends_on_packagesAsked_with_open_package :
    ∃ (i j : Index) (ds : List TrackedDependency) (p q : Project)
      (session : Project.Session),
      i.Fixed ∧ j.Fixed ∧
      i.latest [] "bar".toList ≠ j.latest [] "bar".toList ∧
      ds.map (·.dependency.text) = ["foo @1:".toList, "bar @2:".toList] ∧
      packagesAsked ["bar".toList] (ds.map TrackedDependency.dependency) =
        ["foo".toList] ∧
      (resolveAll ds .latest ["bar".toList] i).run [] =
        (resolveAll ds .latest ["bar".toList] j).run [] ∧
      ((resolveAll ds .minimum [] j).run []).2 = [] ∧
      p.index session.files = i ∧ q.index session.files = j ∧
      p.config = q.config ∧
      (p.resolve none ["bar".toList]).run session =
        (q.resolve none ["bar".toList]).run session ∧
      ((q.resolve (some .any) []).run session).2 = session := by
  let newest : Version := ⟨"3", by decide, by decide⟩
  let i : Index := ⟨fun _ _ => .ok newest, fun _ _ => .ok []⟩
  let j : Index :=
    ⟨fun _ package =>
      if package = "bar".toList then .error (.noVersions package "mirror")
      else .ok newest, fun _ _ => .ok []⟩
  have hi : i.Fixed := ⟨fun _ _ => rfl, fun _ _ => rfl⟩
  have hj : j.Fixed := ⟨fun _ _ => rfl, fun _ _ => rfl⟩
  have hagree : ∀ ds, Index.AgreeOn (packagesAsked ["bar".toList] ds) i j := by
    intro ds
    refine hi.agreeOn hj fun package hpackage => ⟨?_, rfl⟩
    obtain ⟨d, hd, rfl⟩ := List.mem_map.mp hpackage
    have hopen := (Project.needsIndex_iff.mp (List.mem_filter.mp hd).2).2
    have hne : d.package ≠ "bar".toList := by simpa using hopen
    exact (if_neg hne).symm
  let from1 : VersionRange := ⟨some ⟨"1", by decide, by decide⟩, none⟩
  let from2 : VersionRange := ⟨some ⟨"2", by decide, by decide⟩, none⟩
  let ds : List TrackedDependency :=
    [.fresh ⟨"foo", "foo", [from1], none⟩, .fresh ⟨"bar", "bar", [from2], none⟩]
  let config : Config :=
    { declarations := [⟨"foo@1:", none⟩, ⟨"bar@2:", none⟩] }
  let silent : Runner := ⟨fun _ _ _ => { result := .ok [] }⟩
  let p : Project := { config, index := fun _ => i, runner := silent }
  let q : Project := { config, index := fun _ => j, runner := silent }
  let session : Project.Session := { files := {} }
  obtain ⟨hresolveAll, hquiet, hresolve, hquiet'⟩ :=
    outcome_depends_on_packagesAsked
  refine ⟨i, j, ds, p, q, session, hi, hj, ?_, rfl, rfl,
    hresolveAll ds .latest _ i j [] fun _ => hagree _,
    hquiet ds .minimum _ j [] (by decide), rfl, rfl, rfl,
    hresolve p q none _ session rfl fun ds _ _ => hagree ds,
    hquiet' q (some .any) _ session (by decide)⟩
  simp [i, j]

end DevSpecs
