import DevSpecs.Proofs.Dependency.Asking

/-!
# Asking a fixed index

The queries sent before a question have no influence on what a fixed index
answers.  So the answer to a question, what is learnt by it and the queries
that it sends depend only on what has been learnt before.
-/

namespace DevSpecs
namespace Dependency

section Closure

variable {α β : Type}

/-- An outcome whose queries follow those of a history. -/
def sentAfter (history : History) (r : Except ResolveError α × Knowledge) :
    Except ResolveError α × Knowledge :=
  (r.1, r.2.1, history ++ r.2.2)

theorem sentAfter_append (h h' : History)
    (r : Except ResolveError α × Knowledge) :
    sentAfter (h ++ h') r = sentAfter h (sentAfter h' r) := by
  rw [sentAfter, List.append_assoc]
  rfl

/-- A question ends as it would if no query had been sent before. -/
def IgnoresHistory (question : Asking α) : Prop :=
  ∀ learnt history,
    question.run (learnt, history) =
      sentAfter history (question.run (learnt, []))

theorem ignoresHistory_pure (a : α) : IgnoresHistory (pure a) := by
  intro learnt history
  rw [run_pure, run_pure, sentAfter, List.append_nil]

theorem IgnoresHistory.bind {x : Asking α} {f : α → Asking β}
    (hx : IgnoresHistory x) (hf : ∀ a, IgnoresHistory (f a)) :
    IgnoresHistory (x >>= f) := by
  intro learnt history
  rw [run_bind, run_bind, hx learnt history]
  rcases x.run (learnt, []) with ⟨e | a, learnt', sent⟩
  · rfl
  · dsimp only [sentAfter]
    rw [hf a learnt' (history ++ sent), hf a learnt' sent]
    exact sentAfter_append history sent _

end Closure

variable {index : Index}

theorem newestVersion_ignoresHistory (d : Dependency) (hfixed : index.Fixed) :
    IgnoresHistory (d.newestVersion index) := by
  intro learnt history
  by_cases hranges : d.ranges = []
  · simp only [newestVersion, List.isEmpty_iff, hranges, if_true]
    exact ignoresHistory_pure none learnt history
  · simp only [newestVersion, List.isEmpty_iff, hranges, if_false, run_bind,
      run_get]
    cases learnt.latest with
    | some v => exact ignoresHistory_pure (some v) learnt history
    | none =>
        simp only [run_bind, run_set, hfixed.1 history]
        cases index.latest [] d.package with
        | error cause => rfl
        | ok newest =>
            simp only
            cases VersionRange.newestUpTo? newest d.ranges <;> rfl

theorem newestExternal_ignoresHistory (d : Dependency) (hfixed : index.Fixed) :
    IgnoresHistory (d.newestExternal index) := by
  intro learnt history
  simp only [newestExternal, run_bind, run_get]
  cases learnt.external with
  | some answer => exact ignoresHistory_pure answer learnt history
  | none =>
      simp only [run_bind, run_set, hfixed.2 history]
      cases index.externals [] d.package <;> rfl

theorem specs_ignoresHistory (d : Dependency) (mode : Mode)
    (unresolve : List Text) (hfixed : index.Fixed) :
    IgnoresHistory (d.specs mode unresolve index) := by
  unfold specs
  split
  · exact ignoresHistory_pure _
  · split
    · exact ignoresHistory_pure _
    · exact ignoresHistory_pure _
    -- The second question is put after the query that the first one sent.
    · refine (newestExternal_ignoresHistory d hfixed).bind fun external => ?_
      refine (newestVersion_ignoresHistory d hfixed).bind fun latest => ?_
      cases latestToken external latest <;> exact ignoresHistory_pure _

/-- No mode leaves a dependency without specs. -/
theorem specs_ne_nil {d : Dependency} {mode : Mode} {unresolve : List Text}
    {s t : Knowledge} {specs : List Text}
    (h : (d.specs mode unresolve index).run s = (.ok specs, t)) :
    specs ≠ [] := by
  have hends := specs_ends d mode unresolve index s
  rw [h] at hends
  cases hends with
  | unconstrained => exact List.cons_ne_nil _ _
  | any => exact List.cons_ne_nil _ _
  | minimum => exact List.cons_ne_nil _ _
  | latest => exact List.ne_nil_of_mem (mem_sortedDistinct.mpr List.mem_cons_self)

end Dependency
end DevSpecs
