import DevSpecs.Proofs.Resolution.Order
import DevSpecs.Proofs.Resolution.Reach

/-!
# Resolution after asking ahead

A request for the latest versions sends all its queries before it resolves
anything: those about the dependencies that need the index, up to the first
failure.  If there is none, the resolution proper sends no query and cannot fail.
With a fixed index, asking ahead changes neither the success of the resolution
nor its groups.
-/

namespace DevSpecs

/-! ## What is learnt in advance -/

namespace Dependency

variable {d : Dependency} {unresolve : List Text} {index : Index}

/-- A dependency that remembers both answers hands out its specs without a
query. -/
theorem specs_of_remembered (index : Index) (history : History)
    (hneeds : Project.needsIndex unresolve d = true)
    (external : Option Version) (latest : Version) :
    (d.specs .latest unresolve index).run
        (⟨some latest, some external⟩, history) =
      (.ok (sortedDistinct
        [d.text, Spec.withVersion d.base (pinnedToken external latest)]),
        ⟨some latest, some external⟩, history) := by
  obtain ⟨hranges, hopen⟩ := Project.needsIndex_iff.mp hneeds
  have hexternal : (d.inquire index .externals).run
      (⟨some latest, some external⟩, history) =
        (.ok external, ⟨some latest, some external⟩, history) :=
    inquire_of_recall_some (by simp) rfl
  have hlatest : (d.inquire index .latest).run
      (⟨some latest, some external⟩, history) =
        (.ok (some latest), ⟨some latest, some external⟩, history) :=
    inquire_of_recall_some (fun _ => hranges) rfl
  simp only [inquire] at hexternal hlatest
  simp only [specs, List.isEmpty_iff, hranges, if_false, hopen,
    Bool.false_eq_true]
  rw [run_bind, hexternal]
  dsimp only
  rw [run_bind, hlatest]
  dsimp only
  rw [latestToken_some]
  rfl

/-- Where the index fails, a dependency has no specs. -/
theorem Fails.plainSpecs_ne_ok {history : History} {sent : List Query}
    {e : ResolveError} (hfixed : index.Fixed)
    (hneeds : Project.needsIndex unresolve d = true)
    (h : d.Fails index history sent e) (specs : List Text) :
    d.plainSpecs .latest unresolve index ≠ .ok specs := by
  obtain ⟨hranges, hopen⟩ := Project.needsIndex_iff.mp hneeds
  have hmode : d.effectiveMode .latest unresolve = .latest :=
    effectiveMode_eq_latest_iff.mpr ⟨rfl, hopen⟩
  intro hspecs
  obtain ⟨external, latest, hexternal, hlatest, -⟩ :=
    (plainSpecs_latest_eq_ok_iff hranges hmode).mp hspecs
  cases h with
  | externals _ hfails =>
      rw [freshOutcome_of_fixed hfixed, hexternal] at hfails
      cases hfails
  | latest _ _ _ hfails =>
      rw [freshOutcome_of_fixed hfixed, hlatest] at hfails
      cases hfails

end Dependency

namespace Project

open Dependency

variable {unresolve : List Text} {index : Index} {history : History}
  {ds : List Dependency}

theorem Prepared.quiet {t : TrackedDependency}
    (h : Prepared unresolve index t) : t.Quiet .latest unresolve := by
  cases h with
  | answered d _ external latest hneeds _ =>
      exact ⟨_, fun index history =>
        specs_of_remembered index history hneeds external latest⟩
  | fresh d hneeds =>
      have hasks : ¬d.AsksFor .latest unresolve := by simp [AsksFor, hneeds]
      obtain ⟨specs, hspecs⟩ := specs_quiet hasks
      exact ⟨specs, fun index history => hspecs index ({}, history)⟩

theorem Prepared.faithful {t : TrackedDependency} (hfixed : index.Fixed)
    (h : Prepared unresolve index t) : t.Faithful index := by
  cases h with
  | answered d history external latest _ hobtains =>
      intro kind answer hrecall
      cases kind with
      | externals =>
          obtain rfl : external = answer := Option.some.inj hrecall
          exact (freshOutcome_of_fixed hfixed history .externals).symm.trans
            hobtains.external
      | latest =>
          obtain rfl : some latest = answer := Option.some.inj hrecall
          exact (freshOutcome_of_fixed hfixed _ .latest).symm.trans
            hobtains.latest
  | fresh d _ => exact faithful_nothing d index

theorem resolveAhead_latest_run :
    (resolveAhead ds .latest unresolve index).run history =
      match (askAhead ds unresolve index).run history with
      | (.ok tracked, h) =>
        (resolveAll tracked .latest unresolve index).run h
      | (.error e, h) => (.error e, h) := by
  simp only [resolveAhead, if_true]
  rw [run_bind]
  rcases (askAhead ds unresolve index).run history with ⟨e | tracked, h⟩ <;> rfl

/-! ## Fixed indexes -/

theorem faithful_map_fresh (index : Index) (ds : List Dependency) :
    ∀ t ∈ ds.map TrackedDependency.fresh, t.Faithful index := by
  intro t ht
  obtain ⟨d, -, rfl⟩ := List.mem_map.mp ht
  exact faithful_nothing d index

/-- Where a dependency fails, so does the resolution without asking ahead. -/
theorem resolveAll_fresh_ne_ok {d : Dependency} {sent : List Query}
    {e : ResolveError} (hfixed : index.Fixed) (hd : d ∈ ds)
    (hneeds : needsIndex unresolve d = true)
    (hfails : d.Fails index history sent e) (history' : History)
    (groups : SpecGroups) :
    ((resolveAll (ds.map .fresh) .latest unresolve index).run history').1 ≠
      .ok groups := by
  intro hgroups
  have hfaithful := faithful_map_fresh index ds
  have hmem : TrackedDependency.fresh d ∈ ds.map .fresh :=
    List.mem_map_of_mem hd
  obtain ⟨specs, hspecs⟩ :=
    (collects_of_resolveAll hfixed hgroups).exists_answer hfixed hfaithful hmem
  rw [(hfaithful _ hmem).answer hfixed] at hspecs
  exact hfails.plainSpecs_ne_ok hfixed hneeds specs hspecs

/-- With a fixed index, asking ahead changes neither success nor groups. -/
theorem resolveAhead_eq_ok_iff (hfixed : index.Fixed) (ds : List Dependency)
    (unresolve : List Text) (history history' : History) (groups : SpecGroups) :
    ((resolveAhead ds .latest unresolve index).run history).1 = .ok groups ↔
      ((resolveAll (ds.map .fresh) .latest unresolve index).run history').1 =
        .ok groups := by
  rw [resolveAhead_latest_run]
  have hends := askAhead_ends ds unresolve index history
  generalize (askAhead ds unresolve index).run history = r at hends
  cases hends with
  | stopped before d after sent e hsplit hbefore hfails =>
      have hmem : d ∈ ds.filter (needsIndex unresolve) := by
        rw [hsplit]
        exact List.mem_append_right before List.mem_cons_self
      obtain ⟨hd, hneeds⟩ := List.mem_filter.mp hmem
      exact iff_of_false (by simp)
        (resolveAll_fresh_ne_ok hfixed hd hneeds hfails history' groups)
  | done tracked hall hdependencies hprepared =>
      have hcontribute : ContributeAlike Eq .latest unresolve index tracked
          (ds.map .fresh) := by
        refine contributeAlike_of_dependencies hfixed ?_
          (fun t ht => (hprepared t ht).faithful hfixed) (faithful_map_fresh index ds)
        rw [hdependencies, TrackedDependency.map_dependency_fresh]
      exact (resolveAll_endsAlike_eq hfixed hcontribute _ history').eq_ok_iff

/-! ## Requests -/

/-- The dependencies about which a request for the latest versions asks. -/
def pending (p : Project) (unresolve : List Text) (ds : List Dependency) :
    List Dependency :=
  ds.filter (needsIndex (p.leftOpen unresolve))

/-- How a request for the latest versions can end. -/
inductive LatestEnds (p : Project) (ds : List Dependency)
    (unresolve : List Text) (session : Session) :
    Except ProjectError Resolution × Session → Prop
  /-- The index fails for the first time at one of the dependencies. -/
  | stopped (before : List Dependency) (d : Dependency)
      (after : List Dependency) (sent : List Query) (e : ResolveError)
      (hsplit : p.pending unresolve ds = before ++ d :: after)
      (hbefore :
        AllObtained (p.index session.files) session.history before)
      (hfails : d.Fails (p.index session.files)
        (session.history ++ before.flatMap bothQueries) sent e) :
      LatestEnds p ds unresolve session
        (.error (.resolve e),
          { session with
            history := session.history ++ before.flatMap bothQueries ++ sent })
  /-- The index answers everything, and the resolution proper needs it no more. -/
  | done (tracked : List TrackedDependency) (groups : SpecGroups)
      (hall : AllObtained (p.index session.files) session.history
        (p.pending unresolve ds))
      (hahead : (askAhead ds (p.leftOpen unresolve)
        (p.index session.files)).run session.history =
          (.ok tracked, session.history ++
            (p.pending unresolve ds).flatMap bothQueries))
      (hquiet : ∀ index history,
        (resolveAll tracked .latest (p.leftOpen unresolve) index).run history =
          (.ok groups, history)) :
      LatestEnds p ds unresolve session
        (.ok ⟨.latest, p.leftOpen unresolve, groups⟩,
          { session with
            history := session.history ++
              (p.pending unresolve ds).flatMap bothQueries })

section Request

variable {p : Project} {mode : Option Mode} {session : Session}
  (hds : p.config.dependencies = .ok ds) (hmode : p.modeFor mode = .latest)

include hds hmode

theorem resolve_latest_ends (unresolve : List Text) :
    LatestEnds p ds unresolve session ((p.resolve mode unresolve).run session) := by
  rw [resolve_run, hds, hmode]
  dsimp only
  rw [resolveAhead_latest_run]
  have hends := askAhead_ends ds (p.leftOpen unresolve)
    (p.index session.files) session.history
  generalize hrun : (askAhead ds (p.leftOpen unresolve)
    (p.index session.files)).run session.history = r at hends
  cases hends with
  | stopped before d after sent e hsplit hbefore hfails =>
      exact .stopped before d after sent e hsplit hbefore hfails
  | done tracked hall hdependencies hprepared =>
      obtain ⟨groups, hquiet⟩ :=
        resolveAll_quiet fun t ht => (hprepared t ht).quiet
      dsimp only
      rw [hquiet]
      exact .done tracked groups hall hrun hquiet

end Request

/-- A request for the latest versions sends the queries about externals and
newest versions of all dependencies that need the index, in the order of
declaration and up to the first failure, which it answers.  If there is none,
the following resolution sends no query and cannot fail.  With a fixed index the
request succeeds exactly when the same dependencies can be resolved without
asking ahead, with the same groups. -/
theorem asking_ahead_moves_queries (p : Project) (mode : Option Mode)
    (unresolve : List Text) (session : Session) {ds : List Dependency}
    (hds : p.config.dependencies = .ok ds) (hmode : p.modeFor mode = .latest) :
    LatestEnds p ds unresolve session
        ((p.resolve mode unresolve).run session) ∧
      ((p.index session.files).Fixed → ∀ groups history,
        ((p.resolve mode unresolve).run session).1 =
            .ok ⟨.latest, p.leftOpen unresolve, groups⟩ ↔
          ((resolveAll (ds.map .fresh) .latest (p.leftOpen unresolve)
            (p.index session.files)).run history).1 = .ok groups) := by
  refine ⟨resolve_latest_ends hds hmode unresolve, ?_⟩
  intro hfixed groups history
  rw [← resolveAhead_eq_ok_iff hfixed ds (p.leftOpen unresolve) session.history
    history groups, resolve_run, hds, hmode]
  dsimp only
  rcases (resolveAhead ds .latest (p.leftOpen unresolve)
    (p.index session.files)).run session.history with ⟨e | found, h⟩
  · simp
  · simp

/-- A dependency that is declared twice in different spellings is asked about
twice, one that is left open or declares no ranges is not asked about. -/
theorem asking_ahead_moves_queries_with_repetition :
    ∃ (p : Project) (ds : List Dependency) (session : Session),
      p.config.declarations.map Declaration.spec =
        ["foo@1.0:".toList, "zlib".toList, "bar@2:".toList,
          "foo@1-0:".toList] ∧
      p.config.dependencies = .ok ds ∧ p.modeFor none = .latest ∧
      (p.index session.files).Fixed ∧
      ((p.resolve none ["bar".toList]).run session).2.history =
        [.externals "foo".toList, .latest "foo".toList,
          .externals "foo".toList, .latest "foo".toList] ∧
      LatestEnds p ds ["bar".toList] session
        ((p.resolve none ["bar".toList]).run session) ∧
      ∀ groups history,
        ((p.resolve none ["bar".toList]).run session).1 =
            .ok ⟨.latest, p.leftOpen ["bar".toList], groups⟩ ↔
          ((resolveAll (ds.map .fresh) .latest (p.leftOpen ["bar".toList])
            (p.index session.files)).run history).1 = .ok groups := by
  let newest : Version := ⟨"3", by decide, by decide⟩
  let index : Index := ⟨fun _ _ => .ok newest, fun _ _ => .ok []⟩
  have hfixed : index.Fixed := ⟨fun _ _ => rfl, fun _ _ => rfl⟩
  let config : Config :=
    { declarations :=
        [⟨"foo@1.0:", none⟩, ⟨"zlib", none⟩, ⟨"bar@2:", some "+x"⟩,
          ⟨"foo@1-0:", none⟩] }
  let silent : Runner := ⟨fun _ _ _ => { result := .ok [] }⟩
  let p : Project := { config, index := fun _ => index, runner := silent }
  let session : Session := { files := {} }
  obtain ⟨ds, hds, -⟩ :=
    exists_ok_of_any p.config.dependencies (fun _ => true) (by decide +kernel)
  have hhistory : ((p.resolve none ["bar".toList]).run session).2.history =
      [.externals "foo".toList, .latest "foo".toList,
        .externals "foo".toList, .latest "foo".toList] := by decide +kernel
  obtain ⟨hends, hfresh⟩ :=
    asking_ahead_moves_queries p none ["bar".toList] session hds rfl
  exact ⟨p, ds, session, rfl, hds, rfl, hfixed, hhistory, hends, hfresh hfixed⟩

end Project
end DevSpecs
