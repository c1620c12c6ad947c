import DevSpecs.Spec.Parse
import DevSpecs.Mode
import DevSpecs.Index

/-!
# Dependencies

A dependency couples a spec with an optional `when` predicate.  If it declares
version ranges, the first one fixes the minimum version, and no later range may
start below it.  A dependency says

* which versions it supports;
* the newest supported version that an index knows of, and the newest supported
  external;
* which specs Spack should receive in a mode.

The first answer of each kind that an index gives is remembered; a failure is
not.
-/

namespace DevSpecs

/-- A dependency with the ranges it supports. -/
structure Dependency where
  package : Text
  /-- The spec without root versions. -/
  base : Text
  ranges : List VersionRange
  when : Option Text
  deriving BEq, Repr

instance : Hashable Dependency :=
  ⟨fun d =>
    mixHash
      (mixHash (hash (String.ofList d.package)) (hash (String.ofList d.base)))
      (mixHash (hash d.ranges) (hash (d.when.map String.ofList)))⟩

/-- Why dependencies cannot be resolved. -/
inductive ResolveError where
  /-- The newest known version lies below every supported one. -/
  | emptyIntersection (package latest ranges : Text)
  | index (cause : IndexError)
  deriving DecidableEq, Repr

def ResolveError.message : ResolveError → Text
  | emptyIntersection package latest ranges =>
    "no supported latest version for '" ++ package ++ "', intersection of @:" ++ latest ++
      " and " ++ ranges ++ " is empty"
  | index cause => cause.message

/-- Whether ranges may be declared together: each has a lower bound, and none
is below the first. -/
def ascendFrom (minimum : Version) (ranges : List VersionRange) : Bool :=
  ranges.all fun range => range.lower.any fun lower => !decide (lower < minimum)

namespace Dependency

/-! ## Construction -/

/-- Read a dependency.  Errors about its ranges quote the spec as given. -/
def parse (spec : Text) (when : Option Text) : Except SpecError Dependency := do
  let parsed ← Spec.parse spec
  match parsed.ranges with
  | [] => pure ()
  | first :: _ =>
    match first.lower with
    | none => throw (.missingMinimum spec)
    | some minimum =>
      if !ascendFrom minimum parsed.ranges then throw (.unorderedRanges spec)
  return ⟨parsed.package, parsed.base, parsed.ranges, when⟩

/-! ## Supported versions -/

/-- Whether any range is declared. -/
def constrained (d : Dependency) : Bool :=
  !d.ranges.isEmpty

def supports (d : Dependency) (v : Version) : Bool :=
  d.ranges.isEmpty || d.ranges.any (·.contains v)

/-- The least supported version, if any range is declared. -/
def minimum? (d : Dependency) : Option Version :=
  d.ranges.head?.bind VersionRange.lower

/-- The ranges as a version token. -/
def versionToken (d : Dependency) : Text :=
  if d.ranges.isEmpty then "@:" else '@' :: [','].intercalate (d.ranges.map VersionRange.text)

/-- The spec with its ranges. -/
def text (d : Dependency) : Text :=
  if d.ranges.isEmpty then d.base else Spec.withVersion d.base d.versionToken

/-! ## Asking an index -/

/-- What a dependency has learnt from an index. -/
structure Learnt where
  latest : Option Version := none
  external : Option (Option Version) := none
  deriving Repr

/-- A question to an index: it may fail, it changes what is learnt, and it adds
to the history of queries also when it fails. -/
abbrev Asking := ExceptT ResolveError (StateM (Learnt × History))

/-- The newest version that both the index and the ranges support.  There is
none without ranges. -/
def newestVersion (d : Dependency) (index : Index) : Asking (Option Version) := do
  if d.ranges.isEmpty then
    return none
  let (learnt, history) ← get
  if let some latest := learnt.latest then
    return some latest
  set (learnt, history ++ [.latest d.package])
  match index.latest history d.package with
  | .error cause => throw (.index cause)
  | .ok newest =>
    match VersionRange.newestUpTo? newest d.ranges with
    | none => throw (.emptyIntersection d.package newest.text d.versionToken)
    | some latest =>
      modify fun (learnt, history) => ({ learnt with latest := some latest }, history)
      return some latest

/-- The newest external that lies within every range, if there is one. -/
def newestExternal (d : Dependency) (index : Index) : Asking (Option Version) := do
  let (learnt, history) ← get
  if let some external := learnt.external then
    return external
  set (learnt, history ++ [.externals d.package])
  match index.externals history d.package with
  | .error cause => throw (.index cause)
  | .ok versions =>
    let external := VersionRange.newestInAll? d.ranges versions
    modify fun (learnt, history) => ({ learnt with external := some external }, history)
    return external

/-! ## Specs for a mode -/

/-- The spec pinned to its minimum version. -/
def minimumSpec (d : Dependency) : Text :=
  Spec.withVersion d.base ('@' :: (d.minimum?.map Version.text).getD ":")

/-- The token that asks for an external or anything from the latest version. -/
def latestToken (external latest : Option Version) : Option Text :=
  match external.toList.map Version.text ++ latest.toList.map (·.text ++ [':']) with
  | [] => none
  | versions => some ('@' :: [','].intercalate versions)

/-- The specs that Spack should receive, in ascending order.  The ranges of a
package in `unresolve` are left open. -/
def specs (d : Dependency) (mode : Mode) (unresolve : List Text) (index : Index) :
    Asking (List Text) := do
  if d.ranges.isEmpty then
    return [d.base]
  match if unresolve.contains d.package then .any else mode with
  | .any => return [d.text]
  | .minimum => return [d.minimumSpec]
  | .latest =>
    let external ← d.newestExternal index
    let latest ← d.newestVersion index
    match latestToken external latest with
    | none => return [d.text]
    | some token => return sortedDistinct [d.text, Spec.withVersion d.base token]

end Dependency

end DevSpecs
