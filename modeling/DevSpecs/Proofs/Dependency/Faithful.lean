import DevSpecs.Proofs.Dependency.Memory

/-!
# Faithful memories

A fixed index would repeat every answer that it has given.  So a dependency that
remembers answers of this index hands out the same specs as one that remembers
nothing, whatever was asked before.
-/

namespace DevSpecs
namespace Dependency

variable {d : Dependency} {index : Index} {learnt : Learnt} {s : Knowledge}

/-- What is remembered is what the index answers to a first query. -/
def Faithful (d : Dependency) (index : Index) (learnt : Learnt) : Prop :=
  ∀ kind answer, learnt.recall kind = some answer →
    d.freshOutcome index [] kind = .ok answer

theorem faithful_nothing (d : Dependency) (index : Index) :
    d.Faithful index {} := by
  intro kind answer hrecall
  cases kind <;> simp [Learnt.recall] at hrecall

theorem Faithful.remember (h : d.Faithful index learnt) (kind : Kind) :
    d.Faithful index
      (learnt.remember kind (d.freshOutcome index [] kind)) := by
  intro kind' answer hrecall
  by_cases hkind : kind = kind'
  · subst hkind
    rcases houtcome : d.freshOutcome index [] kind with e | first
    · rw [houtcome, remember_error] at hrecall
      exact houtcome.symm.trans (h kind answer hrecall)
    · rw [houtcome] at hrecall
      cases kind with
      | externals => exact congrArg Except.ok (Option.some.inj hrecall)
      | latest =>
          cases first with
          | none => exact houtcome.symm.trans (h .latest answer hrecall)
          | some v => exact congrArg Except.ok (Option.some.inj hrecall)
  · rw [recall_remember_of_ne hkind] at hrecall
    exact h kind' answer hrecall

theorem freshOutcome_of_fixed (hfixed : index.Fixed) (history : History)
    (kind : Kind) :
    d.freshOutcome index history kind = d.freshOutcome index [] kind := by
  cases kind with
  | latest => simp only [freshOutcome, hfixed.1 history]
  | externals => simp only [freshOutcome, hfixed.2 history]

/-- There is nothing to remember about newest versions without ranges. -/
theorem Faithful.stores (h : d.Faithful index learnt) {kind : Kind}
    {answer : Option Version} (hrecall : learnt.recall kind = some answer) :
    d.Stores kind := by
  rintro rfl hranges
  have hnone : d.freshOutcome index [] .latest = .ok none := by
    simp [freshOutcome, hranges]
  obtain ⟨v, -, rfl⟩ : ∃ v, learnt.latest = some v ∧ some v = answer :=
    Option.map_eq_some_iff.mp hrecall
  have hsome := h .latest _ hrecall
  simp [hnone] at hsome

/-- An inquiry ends as the first one would, and what is learnt is faithful. -/
theorem Faithful.inquire (hfixed : index.Fixed) (h : d.Faithful index s.1)
    (kind : Kind) :
    ((d.inquire index kind).run s).1 = d.freshOutcome index [] kind ∧
      d.Faithful index ((d.inquire index kind).run s).2.1 := by
  cases hrecall : s.1.recall kind with
  | none =>
      rw [inquire_of_recall_none hrecall, freshOutcome_of_fixed hfixed]
      exact ⟨rfl, h.remember kind⟩
  | some answer =>
      rw [inquire_of_recall_some (h.stores hrecall) hrecall]
      exact ⟨(h kind answer hrecall).symm, h⟩

/-- The specs for a mode when nothing has been asked and nothing is remembered. -/
def plainSpecs (d : Dependency) (mode : Mode) (unresolve : List Text)
    (index : Index) : Except ResolveError (List Text) :=
  if d.ranges = [] then .ok [d.base]
  else
    match d.effectiveMode mode unresolve with
    | .any => .ok [d.text]
    | .minimum => .ok [d.minimumSpec]
    | .latest => do
      let external ← d.freshOutcome index [] .externals
      let latest ← d.freshOutcome index [] .latest
      return sortedDistinct
        (d.text :: (latestToken external latest).toList.map
          (Spec.withVersion d.base))

theorem plainSpecs_latest_eq_ok_iff {mode : Mode} {unresolve specs : List Text}
    (hranges : d.ranges ≠ [])
    (hmode : d.effectiveMode mode unresolve = .latest) :
    d.plainSpecs mode unresolve index = .ok specs ↔
      ∃ external latest, d.freshOutcome index [] .externals = .ok external ∧
        d.freshOutcome index [] .latest = .ok (some latest) ∧
        sortedDistinct
          [d.text, Spec.withVersion d.base (pinnedToken external latest)] =
            specs := by
  simp only [plainSpecs, hranges, hmode, if_false]
  cases d.freshOutcome index [] .externals with
  | error e => simp [bind, Except.bind]
  | ok external =>
      cases hlatest : d.freshOutcome index [] .latest with
      | error e => simp [bind, Except.bind]
      | ok latest =>
          cases latest with
          | none => exact absurd hlatest (freshOutcome_latest_ne_none hranges)
          | some v =>
              simp [latestToken_some, bind, Except.bind, pure, Except.pure]

/-- With a fixed index, neither faithful memories nor earlier queries change the
specs. -/
theorem Faithful.specs (hfixed : index.Fixed) (h : d.Faithful index s.1)
    (mode : Mode) (unresolve : List Text) :
    ((d.specs mode unresolve index).run s).1 =
      d.plainSpecs mode unresolve index := by
  obtain ⟨hfirst, hlearnt⟩ := h.inquire hfixed .externals
  have hsecond : ∀ external t,
      (d.newestExternal index).run s = (.ok external, t) →
        ((d.newestVersion index).run t).1 = d.freshOutcome index [] .latest := by
    intro external t hexternal
    simp only [Dependency.inquire, hexternal] at hlearnt
    exact (hlearnt.inquire (s := t) hfixed .latest).1
  simp only [Dependency.inquire] at hfirst
  have hends := specs_ends d mode unresolve index s
  generalize (d.specs mode unresolve index).run s = r at hends
  cases hends with
  | unconstrained hranges => simp [plainSpecs, hranges]
  | any hranges hmode => simp [plainSpecs, hranges, hmode]
  | minimum hranges hmode => simp [plainSpecs, hranges, hmode]
  | externalFailed e t hranges hmode hexternal =>
      rw [hexternal] at hfirst
      simp [plainSpecs, hranges, hmode, ← hfirst, bind, Except.bind]
  | versionFailed external e t u hranges hmode hexternal hlatest =>
      have hversion := hsecond external t hexternal
      rw [hexternal] at hfirst
      rw [hlatest] at hversion
      simp [plainSpecs, hranges, hmode, ← hfirst, ← hversion, bind,
        Except.bind]
  | latest external latest t u hranges hmode hexternal hlatest =>
      have hversion := hsecond external t hexternal
      rw [hexternal] at hfirst
      rw [hlatest] at hversion
      simp [plainSpecs, hranges, hmode, ← hfirst, ← hversion,
        latestToken_some, bind, Except.bind, pure, Except.pure]

end Dependency
end DevSpecs
