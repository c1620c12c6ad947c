import DevSpecs.Project
import DevSpecs.Proofs.Dependency.Memory
import DevSpecs.Proofs.Resolution.Distinct

/-!
# Asking ahead

Before a resolution to the latest versions, the index is asked about every
dependency that needs it: for its externals and then for its newest version, in
the order of declaration, up to the first failure.  If there is none, every such
dependency remembers both answers.
-/

namespace DevSpecs

namespace Dependency

variable {d : Dependency}

/-- The two queries about a dependency. -/
def bothQueries (d : Dependency) : List Query :=
  [.externals d.package, .latest d.package]

/-- The index answers both queries about a dependency, one after the other. -/
structure Obtains (d : Dependency) (index : Index) (history : History)
    (external : Option Version) (latest : Version) : Prop where
  external : d.freshOutcome index history .externals = .ok external
  latest : d.freshOutcome index (history ++ [.externals d.package]) .latest =
    .ok (some latest)

/-- One of the two inquiries fails; the queries up to there have been sent. -/
inductive Fails (d : Dependency) (index : Index) (history : History) :
    List Query → ResolveError → Prop
  | externals (e : ResolveError)
      (hfails : d.freshOutcome index history .externals = .error e) :
      Fails d index history [.externals d.package] e
  | latest (external : Option Version) (e : ResolveError)
      (hexternal : d.freshOutcome index history .externals = .ok external)
      (hfails : d.freshOutcome index (history ++ [.externals d.package]) .latest =
        .error e) :
      Fails d index history d.bothQueries e

/-- How it can end when the index is consulted about a dependency. -/
inductive ConsultEnds (d : Dependency) (index : Index) (history : History) :
    Except ResolveError Unit × Knowledge → Prop
  | failed (sent : List Query) (e : ResolveError) (learnt : Learnt)
      (hfails : d.Fails index history sent e) :
      ConsultEnds d index history (.error e, learnt, history ++ sent)
  | answered (external : Option Version) (latest : Version)
      (hobtains : d.Obtains index history external latest) :
      ConsultEnds d index history
        (.ok (), ⟨some latest, some external⟩, history ++ d.bothQueries)

theorem consult_ends (index : Index) (history : History)
    (hranges : d.ranges ≠ []) :
    ConsultEnds d index history
      ((Project.consult index d).run ({}, history)) := by
  have hconsult : Project.consult index d =
      (do let _ ← d.inquire index .externals
          let _ ← d.inquire index .latest) := rfl
  have hexternal : (d.inquire index .externals).run ({}, history) = _ :=
    inquire_of_recall_none rfl
  rw [hconsult, run_bind, hexternal]
  cases hfirst : d.freshOutcome index history .externals with
  | error e => exact .failed _ e {} (.externals e hfirst)
  | ok external =>
      have hlatest : (d.inquire index .latest).run
          ({ external := some external }, history ++ d.queriesFor .externals) =
            _ := inquire_of_recall_none rfl
      have hqueries : history ++ d.queriesFor .externals ++
          d.queriesFor .latest = history ++ d.bothQueries := by
        simp [queriesFor, bothQueries, hranges]
      dsimp only [Learnt.remember]
      rw [run_bind, hlatest]
      dsimp only
      rw [hqueries]
      cases hsecond : d.freshOutcome index
        (history ++ d.queriesFor .externals) .latest with
      | error e => exact .failed _ e _ (.latest external e hfirst hsecond)
      | ok latest =>
          cases latest with
          | none => exact absurd hsecond (freshOutcome_latest_ne_none hranges)
          | some latest => exact .answered external latest ⟨hfirst, hsecond⟩

end Dependency

namespace Project

open Dependency

theorem needsIndex_iff {d : Dependency} {unresolve : List Text} :
    needsIndex unresolve d = true ↔
      d.ranges ≠ [] ∧ unresolve.contains d.package = false := by
  simp [needsIndex, constrained]

variable {unresolve : List Text} {index : Index} {history : History}

/-- The index answers all queries about dependencies, one after the other. -/
def AllObtained (index : Index) (history : History) (ds : List Dependency) :
    Prop :=
  ∀ earlier d later, ds = earlier ++ d :: later →
    ∃ external latest,
      d.Obtains index (history ++ earlier.flatMap bothQueries) external latest

theorem allObtained_nil : AllObtained index history [] := by
  intro earlier d later hsplit
  simp at hsplit

theorem AllObtained.cons {d : Dependency} {ds : List Dependency}
    {external : Option Version} {latest : Version}
    (hd : d.Obtains index history external latest)
    (hds : AllObtained index (history ++ d.bothQueries) ds) :
    AllObtained index history (d :: ds) := by
  intro earlier e later hsplit
  cases earlier with
  | nil =>
      obtain ⟨rfl, -⟩ := List.cons.inj hsplit
      exact ⟨external, latest, by simpa using hd⟩
  | cons x earlier =>
      obtain ⟨rfl, hrest⟩ := List.cons.inj hsplit
      simpa using hds earlier e later hrest

/-- A dependency after the index was asked ahead: it has learnt both answers if
it needs the index, and nothing otherwise. -/
inductive Prepared (unresolve : List Text) (index : Index) :
    TrackedDependency → Prop
  | answered (d : Dependency) (history : History) (external : Option Version)
      (latest : Version) (hneeds : needsIndex unresolve d = true)
      (hobtains : d.Obtains index history external latest) :
      Prepared unresolve index ⟨d, some latest, some external⟩
  | fresh (d : Dependency) (hneeds : needsIndex unresolve d = false) :
      Prepared unresolve index (.fresh d)

/-- How asking ahead can end. -/
inductive AskAheadEnds (ds : List Dependency) (unresolve : List Text)
    (index : Index) (history : History) :
    Except ResolveError (List TrackedDependency) × History → Prop
  | stopped (before : List Dependency) (d : Dependency)
      (after : List Dependency) (sent : List Query) (e : ResolveError)
      (hsplit : ds.filter (needsIndex unresolve) = before ++ d :: after)
      (hbefore : AllObtained index history before)
      (hfails : d.Fails index (history ++ before.flatMap bothQueries) sent e) :
      AskAheadEnds ds unresolve index history
        (.error e, history ++ before.flatMap bothQueries ++ sent)
  | done (tracked : List TrackedDependency)
      (hall : AllObtained index history (ds.filter (needsIndex unresolve)))
      (hdependencies : tracked.map TrackedDependency.dependency = ds)
      (hprepared : ∀ t ∈ tracked, Prepared unresolve index t) :
      AskAheadEnds ds unresolve index history
        (.ok tracked,
          history ++ (ds.filter (needsIndex unresolve)).flatMap bothQueries)

/-- The index is asked ahead about the first dependency and then the others. -/
theorem askAhead_cons_run (d : Dependency) (ds : List Dependency) :
    (askAhead (d :: ds) unresolve index).run history =
      match (askAhead [d] unresolve index).run history with
      | (.error e, h) => (.error e, h)
      | (.ok first, h) =>
        (((askAhead ds unresolve index).run h).1.map (first ++ ·),
          ((askAhead ds unresolve index).run h).2) := by
  have happend : askAhead (d :: ds) unresolve index =
      (do let first ← askAhead [d] unresolve index
          let rest ← askAhead ds unresolve index
          return first ++ rest) := by
    rw [askAhead, ← List.singleton_append, List.mapM_append]
    rfl
  rw [happend, run_bind]
  rcases (askAhead [d] unresolve index).run history with ⟨e | first, h⟩
  · rfl
  · dsimp only
    rw [run_bind]
    rcases (askAhead ds unresolve index).run h with ⟨e | rest, h'⟩ <;> rfl

theorem askAhead_singleton_of_needsIndex {d : Dependency}
    (hneeds : needsIndex unresolve d = true) :
    (askAhead [d] unresolve index).run history =
      match (consult index d).run ({}, history) with
      | (.error e, _, h) => (.error e, h)
      | (.ok _, learnt, h) => (.ok [⟨d, learnt⟩], h) := by
  rw [askAhead, List.mapM_cons, List.mapM_nil, run_bind]
  simp only [hneeds, if_true]
  rw [run_bind, TrackedDependency.ask]
  simp only [ExceptT.run_mk]
  rcases (consult index d).run ({}, history) with ⟨e | _, learnt, h⟩ <;> rfl

theorem askAhead_singleton_of_not_needsIndex {d : Dependency}
    (hneeds : needsIndex unresolve d = false) :
    (askAhead [d] unresolve index).run history =
      (.ok [.fresh d], history) := by
  rw [askAhead, List.mapM_cons, List.mapM_nil, run_bind]
  simp only [hneeds]
  rfl

/-- A dependency that needs no index comes first. -/
theorem AskAheadEnds.cons_fresh {d : Dependency} {ds : List Dependency}
    {r : Except ResolveError (List TrackedDependency) × History}
    (hneeds : needsIndex unresolve d = false)
    (h : AskAheadEnds ds unresolve index history r) :
    AskAheadEnds (d :: ds) unresolve index history
      (r.1.map (.fresh d :: ·), r.2) := by
  have hfilter : (d :: ds).filter (needsIndex unresolve) =
      ds.filter (needsIndex unresolve) := List.filter_cons_of_neg (by simp [hneeds])
  cases h with
  | stopped before d' after sent e hsplit hbefore hfails =>
      exact .stopped before d' after sent e (hfilter.trans hsplit) hbefore hfails
  | done tracked hall hdependencies hprepared =>
      rw [← hfilter] at hall ⊢
      refine .done _ hall ?_ ?_
      · rw [List.map_cons, hdependencies, TrackedDependency.fresh]
      · exact List.forall_mem_cons.mpr ⟨.fresh d hneeds, hprepared⟩

/-- A dependency about which the index answers comes first. -/
theorem AskAheadEnds.cons_answered {d : Dependency} {ds : List Dependency}
    {r : Except ResolveError (List TrackedDependency) × History}
    {external : Option Version} {latest : Version}
    (hneeds : needsIndex unresolve d = true)
    (hobtains : d.Obtains index history external latest)
    (h : AskAheadEnds ds unresolve index (history ++ d.bothQueries) r) :
    AskAheadEnds (d :: ds) unresolve index history
      (r.1.map (⟨d, some latest, some external⟩ :: ·), r.2) := by
  have hfilter : (d :: ds).filter (needsIndex unresolve) =
      d :: ds.filter (needsIndex unresolve) := List.filter_cons_of_pos hneeds
  have hshift : ∀ before : List Dependency,
      history ++ d.bothQueries ++ before.flatMap bothQueries =
        history ++ (d :: before).flatMap bothQueries := by
    intro before
    rw [List.flatMap_cons, List.append_assoc]
  cases h with
  | stopped before d' after sent e hsplit hbefore hfails =>
      rw [hshift] at hfails ⊢
      refine .stopped (d :: before) d' after sent e ?_ (hbefore.cons hobtains) hfails
      rw [hfilter, hsplit, List.cons_append]
  | done tracked hall hdependencies hprepared =>
      rw [hshift, ← hfilter]
      refine .done _ ?_ ?_ ?_
      · rw [hfilter]
        exact hall.cons hobtains
      · rw [List.map_cons, hdependencies]
      · exact List.forall_mem_cons.mpr
          ⟨.answered d history external latest hneeds hobtains, hprepared⟩

theorem askAhead_ends (ds : List Dependency) (unresolve : List Text)
    (index : Index) (history : History) :
    AskAheadEnds ds unresolve index history
      ((askAhead ds unresolve index).run history) := by
  induction ds generalizing history with
  | nil =>
      have hdone : AskAheadEnds [] unresolve index history
          (.ok [], history ++ []) :=
        .done [] allObtained_nil rfl (by simp)
      rw [List.append_nil] at hdone
      exact hdone
  | cons d ds ih =>
      rw [askAhead_cons_run]
      cases hneeds : needsIndex unresolve d with
      | false =>
          rw [askAhead_singleton_of_not_needsIndex hneeds]
          exact (ih history).cons_fresh hneeds
      | true =>
          rw [askAhead_singleton_of_needsIndex hneeds]
          have hconsult :=
            consult_ends index history (needsIndex_iff.mp hneeds).1
          generalize (consult index d).run ({}, history) = r at hconsult
          cases hconsult with
          | failed sent e learnt hfails =>
              have hstopped : AskAheadEnds (d :: ds) unresolve index history
                  (.error e, history ++ [] ++ sent) := by
                refine .stopped [] d (ds.filter (needsIndex unresolve)) sent e
                  (List.filter_cons_of_pos hneeds) allObtained_nil ?_
                simpa using hfails
              rwa [List.append_nil] at hstopped
          | answered external latest hobtains =>
              exact (ih (history ++ d.bothQueries)).cons_answered hneeds
                hobtains

end Project

end DevSpecs
