import DevSpecs.Dependency
import DevSpecs.Proofs.Outcomes

/-!
# Asking an index

How the questions of a dependency end, and what they leave behind.  A question
about the newest version or the newest external either repeats what has been
learnt or sends one query; only a success is remembered.  What the specs for a
mode leave behind is left behind by these two questions.
-/

namespace DevSpecs
namespace Dependency

/-- What a dependency has learnt and which queries have been sent. -/
abbrev Knowledge := Learnt × History

variable {d : Dependency} {index : Index} {s : Knowledge}

/-! ## The newest version -/

/-- How the question about the newest version can end. -/
inductive NewestVersionEnds (d : Dependency) (index : Index) (s : Knowledge) :
    Except ResolveError (Option Version) × Knowledge → Prop
  | unconstrained (hranges : d.ranges = []) :
      NewestVersionEnds d index s (.ok none, s)
  | repeated (v : Version) (hranges : d.ranges ≠ [])
      (hlearnt : s.1.latest = some v) :
      NewestVersionEnds d index s (.ok (some v), s)
  | failed (cause : IndexError) (hranges : d.ranges ≠ [])
      (hlearnt : s.1.latest = none)
      (hquery : index.latest s.2 d.package = .error cause) :
      NewestVersionEnds d index s
        (.error (.index cause), s.1, s.2 ++ [.latest d.package])
  | empty (newest : Version) (hranges : d.ranges ≠ [])
      (hlearnt : s.1.latest = none)
      (hquery : index.latest s.2 d.package = .ok newest)
      (hwalk : VersionRange.newestUpTo? newest d.ranges = none) :
      NewestVersionEnds d index s
        (.error (.emptyIntersection d.package newest.text d.versionToken),
          s.1, s.2 ++ [.latest d.package])
  | found (newest v : Version) (hranges : d.ranges ≠ [])
      (hlearnt : s.1.latest = none)
      (hquery : index.latest s.2 d.package = .ok newest)
      (hwalk : VersionRange.newestUpTo? newest d.ranges = some v) :
      NewestVersionEnds d index s
        (.ok (some v), { s.1 with latest := some v },
          s.2 ++ [.latest d.package])

theorem newestVersion_ends (d : Dependency) (index : Index) (s : Knowledge) :
    NewestVersionEnds d index s ((d.newestVersion index).run s) := by
  by_cases hranges : d.ranges = []
  · simp only [newestVersion, List.isEmpty_iff, hranges, if_true]
    exact .unconstrained hranges
  · simp only [newestVersion, List.isEmpty_iff, hranges, if_false, run_bind,
      run_get]
    cases hlearnt : s.1.latest with
    | some v => exact .repeated v hranges hlearnt
    | none =>
        simp only [run_bind, run_set]
        cases hquery : index.latest s.2 d.package with
        | error cause => exact .failed cause hranges hlearnt hquery
        | ok newest =>
            cases hwalk : VersionRange.newestUpTo? newest d.ranges with
            | none =>
                simp only [hwalk]
                exact .empty newest hranges hlearnt hquery hwalk
            | some v =>
                simp only [hwalk]
                exact .found newest v hranges hlearnt hquery hwalk

/-- What the walk answers for a version of the index is remembered. -/
theorem newestVersion_of_query {newest v : Version}
    (hranges : d.ranges ≠ []) (hlearnt : s.1.latest = none)
    (hquery : index.latest s.2 d.package = .ok newest)
    (hwalk : VersionRange.newestUpTo? newest d.ranges = some v) :
    (d.newestVersion index).run s =
      (.ok (some v), { s.1 with latest := some v },
        s.2 ++ [.latest d.package]) := by
  have hends := newestVersion_ends d index s
  generalize hrun : (d.newestVersion index).run s = r at hends
  cases hends with
  | unconstrained h => exact absurd h hranges
  | repeated _ _ h => simp [hlearnt] at h
  | failed _ _ _ h => simp [hquery] at h
  | empty newest' _ _ h hnone =>
      obtain rfl : newest = newest' := Except.ok.inj (hquery.symm.trans h)
      simp [hwalk] at hnone
  | found newest' v' _ _ h hsome =>
      obtain rfl : newest = newest' := Except.ok.inj (hquery.symm.trans h)
      obtain rfl : v = v' := Option.some.inj (hwalk.symm.trans hsome)
      rfl

/-! ## The newest external -/

/-- How the question about the newest external can end. -/
inductive NewestExternalEnds (d : Dependency) (index : Index) (s : Knowledge) :
    Except ResolveError (Option Version) × Knowledge → Prop
  | repeated (answer : Option Version)
      (hlearnt : s.1.external = some answer) :
      NewestExternalEnds d index s (.ok answer, s)
  | failed (cause : IndexError) (hlearnt : s.1.external = none)
      (hquery : index.externals s.2 d.package = .error cause) :
      NewestExternalEnds d index s
        (.error (.index cause), s.1, s.2 ++ [.externals d.package])
  | found (versions : List Version) (hlearnt : s.1.external = none)
      (hquery : index.externals s.2 d.package = .ok versions) :
      NewestExternalEnds d index s
        (.ok (VersionRange.newestInAll? d.ranges versions),
          { s.1 with
            external := some (VersionRange.newestInAll? d.ranges versions) },
          s.2 ++ [.externals d.package])

theorem newestExternal_ends (d : Dependency) (index : Index) (s : Knowledge) :
    NewestExternalEnds d index s ((d.newestExternal index).run s) := by
  simp only [newestExternal, run_bind, run_get]
  cases hlearnt : s.1.external with
  | some answer => exact .repeated answer hlearnt
  | none =>
      simp only [run_bind, run_set]
      cases hquery : index.externals s.2 d.package with
      | error cause => exact .failed cause hlearnt hquery
      | ok versions => exact .found versions hlearnt hquery

/-! ## The specs for a mode -/

/-- The mode in which a dependency is resolved. -/
def effectiveMode (d : Dependency) (mode : Mode) (unresolve : List Text) :
    Mode :=
  if unresolve.contains d.package then .any else mode

/-- The token for a newest version and possibly an external. -/
def pinnedToken (external : Option Version) (latest : Version) : Text :=
  '@' :: [','].intercalate
    (external.toList.map Version.text ++ [latest.text ++ [':']])

theorem latestToken_some (external : Option Version) (latest : Version) :
    latestToken external (some latest) = some (pinnedToken external latest) := by
  cases external <;> rfl

/-- How the question about the specs for a mode can end. -/
inductive SpecsEnds (d : Dependency) (mode : Mode) (unresolve : List Text)
    (index : Index) (s : Knowledge) :
    Except ResolveError (List Text) × Knowledge → Prop
  | unconstrained (hranges : d.ranges = []) :
      SpecsEnds d mode unresolve index s (.ok [d.base], s)
  | any (hranges : d.ranges ≠ [])
      (hmode : d.effectiveMode mode unresolve = .any) :
      SpecsEnds d mode unresolve index s (.ok [d.text], s)
  | minimum (hranges : d.ranges ≠ [])
      (hmode : d.effectiveMode mode unresolve = .minimum) :
      SpecsEnds d mode unresolve index s (.ok [d.minimumSpec], s)
  | externalFailed (e : ResolveError) (t : Knowledge) (hranges : d.ranges ≠ [])
      (hmode : d.effectiveMode mode unresolve = .latest)
      (hexternal : (d.newestExternal index).run s = (.error e, t)) :
      SpecsEnds d mode unresolve index s (.error e, t)
  | versionFailed (external : Option Version) (e : ResolveError)
      (t u : Knowledge) (hranges : d.ranges ≠ [])
      (hmode : d.effectiveMode mode unresolve = .latest)
      (hexternal : (d.newestExternal index).run s = (.ok external, t))
      (hlatest : (d.newestVersion index).run t = (.error e, u)) :
      SpecsEnds d mode unresolve index s (.error e, u)
  | latest (external : Option Version) (latest : Version) (t u : Knowledge)
      (hranges : d.ranges ≠ [])
      (hmode : d.effectiveMode mode unresolve = .latest)
      (hexternal : (d.newestExternal index).run s = (.ok external, t))
      (hlatest : (d.newestVersion index).run t = (.ok (some latest), u)) :
      SpecsEnds d mode unresolve index s
        (.ok (sortedDistinct
          [d.text, Spec.withVersion d.base (pinnedToken external latest)]), u)

theorem specs_ends (d : Dependency) (mode : Mode) (unresolve : List Text)
    (index : Index) (s : Knowledge) :
    SpecsEnds d mode unresolve index s
      ((d.specs mode unresolve index).run s) := by
  by_cases hranges : d.ranges = []
  · simp only [specs, List.isEmpty_iff, hranges, if_true]
    exact .unconstrained hranges
  · simp only [specs, List.isEmpty_iff, hranges, if_false]
    cases hmode : d.effectiveMode mode unresolve with
    | any =>
        simp only [effectiveMode] at hmode
        simp only [hmode]
        exact .any hranges hmode
    | minimum =>
        simp only [effectiveMode] at hmode
        simp only [hmode]
        exact .minimum hranges hmode
    | latest =>
        simp only [effectiveMode] at hmode
        simp only [hmode, run_bind]
        rcases hexternal : (d.newestExternal index).run s with ⟨e | external, t⟩
        · exact .externalFailed e t hranges hmode hexternal
        · simp only
          have hends := newestVersion_ends d index t
          rcases hlatest : (d.newestVersion index).run t with ⟨e | latest, u⟩
          · exact .versionFailed external e t u hranges hmode hexternal hlatest
          · cases latest with
            | none =>
                rw [hlatest] at hends
                cases hends with
                | unconstrained h => exact absurd h hranges
            | some latest =>
                simp only [latestToken_some]
                exact .latest external latest t u hranges hmode hexternal hlatest

/-! ## Runs of questions -/

/-- A question that can be put to a dependency. -/
inductive Question where
  | newestVersion
  | newestExternal
  | specs (mode : Mode) (unresolve : List Text)

/-- What is known after a question. -/
def Question.after (d : Dependency) (index : Index) (s : Knowledge) :
    Question → Knowledge
  | newestVersion => ((d.newestVersion index).run s).2
  | newestExternal => ((d.newestExternal index).run s).2
  | specs mode unresolve => ((d.specs mode unresolve index).run s).2

/-- What is known after several questions, one after the other. -/
def afterAll (d : Dependency) (index : Index) (s : Knowledge)
    (questions : List Question) : Knowledge :=
  questions.foldl (Question.after d index) s

section Preservation

variable {P : Knowledge → Prop}

/-- What the two questions to the index preserve is preserved by every
question. -/
theorem Question.after_preserves
    (hversion : ∀ s, P s → P ((d.newestVersion index).run s).2)
    (hexternal : ∀ s, P s → P ((d.newestExternal index).run s).2)
    (hs : P s) (q : Question) : P (q.after d index s) := by
  cases q with
  | newestVersion => exact hversion s hs
  | newestExternal => exact hexternal s hs
  | specs mode unresolve =>
      have hends := specs_ends d mode unresolve index s
      simp only [Question.after]
      generalize (d.specs mode unresolve index).run s = r at hends
      cases hends with
      | unconstrained _ => exact hs
      | any _ _ => exact hs
      | minimum _ _ => exact hs
      | externalFailed e t _ _ hrun =>
          have ht := hexternal s hs
          rwa [hrun] at ht
      | versionFailed external e t u _ _ hrun hrun' =>
          have ht := hexternal s hs
          rw [hrun] at ht
          have hu := hversion t ht
          rwa [hrun'] at hu
      | latest external latest t u _ _ hrun hrun' =>
          have ht := hexternal s hs
          rw [hrun] at ht
          have hu := hversion t ht
          rwa [hrun'] at hu

theorem afterAll_preserves
    (hversion : ∀ s, P s → P ((d.newestVersion index).run s).2)
    (hexternal : ∀ s, P s → P ((d.newestExternal index).run s).2)
    (hs : P s) (questions : List Question) :
    P (afterAll d index s questions) := by
  induction questions generalizing s with
  | nil => exact hs
  | cons q rest ih =>
      exact ih (q.after_preserves hversion hexternal hs)

end Preservation

end Dependency
end DevSpecs
