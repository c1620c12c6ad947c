import DevSpecs.Dependency

/-!
# Resolution of dependencies

The specs of all dependencies are collected into one group per `when`
predicate.  The group without predicate comes first, the others follow in the
order of their predicates, and the specs of a group are in ascending order.
Equal dependencies are resolved once, in the place of the first.
-/

namespace DevSpecs

/-- The specs that share a `when` predicate. -/
structure SpecGroup where
  when : Option Text
  specs : List Text
  deriving DecidableEq, Repr

/-- Groups with ascending predicates and ascending specs. -/
abbrev SpecGroups := List SpecGroup

namespace SpecGroups

/-- Unite specs that share a predicate. -/
def ofList (pairs : List (Option Text × List Text)) : SpecGroups :=
  (sortedDistinct (pairs.map Prod.fst)).map fun key =>
    ⟨key, sortedDistinct ((pairs.filter (·.1 = key)).flatMap Prod.snd)⟩

def countSpecs (groups : SpecGroups) : Nat :=
  (groups.flatMap (·.specs)).length

end SpecGroups

/-- A dependency together with what it has learnt. -/
structure TrackedDependency where
  dependency : Dependency
  learnt : Dependency.Learnt := {}

namespace TrackedDependency

/-- Equality of the dependencies alone. -/
instance : BEq TrackedDependency :=
  ⟨fun a b => a.dependency == b.dependency⟩

/-- The distinct dependencies in the order in which their groups are resolved:
by predicate, and in the order given under the same predicate. -/
def inGroupOrder (ds : List TrackedDependency) : List TrackedDependency :=
  let distinct := ds.eraseDups
  (sortedDistinct (distinct.map (·.dependency.when))).flatMap fun key =>
    distinct.filter (·.dependency.when = key)

end TrackedDependency

/-- A computation that sends queries and may fail. -/
abbrev Querying := ExceptT ResolveError (StateM History)

/-- Ask on behalf of a dependency; the result comes with what it knows
afterwards. -/
def TrackedDependency.ask {α : Type} (d : TrackedDependency)
    (question : Dependency.Asking α) : Querying (α × Dependency.Learnt) :=
  ExceptT.mk fun history =>
    let (answer, learnt, history) := question.run (d.learnt, history)
    (answer.map (·, learnt), history)

/-- Resolve every dependency for a mode. -/
def resolveAll (ds : List TrackedDependency) (mode : Mode) (unresolve : List Text)
    (index : Index) : Querying SpecGroups := do
  let pairs ← (TrackedDependency.inGroupOrder ds).mapM fun d => do
    let (specs, _) ← d.ask (d.dependency.specs mode unresolve index)
    return (d.dependency.when, specs)
  return SpecGroups.ofList pairs

end DevSpecs
