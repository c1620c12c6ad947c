import DevSpecs.Version.Basic
import DevSpecs.Text.Sorted

/-!
# Version ranges

A range has an optional lower and an optional upper bound, both inclusive.
Bounds are literal: `1.2.1` lies outside `1.0:1.2`.
-/

namespace DevSpecs

/-- An inclusive version range; a missing bound does not restrict. -/
structure VersionRange where
  lower : Option Version := none
  upper : Option Version := none
  deriving BEq, Hashable, Repr

namespace VersionRange

/-- The range that holds only versions equal to `v`. -/
def exactly (v : Version) : VersionRange :=
  ⟨some v, some v⟩

/-- Whether `v` lies within both bounds. -/
def contains (r : VersionRange) (v : Version) : Bool :=
  r.lower.all (fun lower => decide (lower ≤ v)) && r.upper.all (fun upper => decide (v ≤ upper))

/-- A range is written `lower:upper`, each bound only if there is one. -/
def text (r : VersionRange) : Text :=
  (r.lower.map Version.text).getD [] ++ ':' :: (r.upper.map Version.text).getD []

/-- Walk along ranges up to a limit, with the last upper bound met so far. -/
def walkUpTo (limit : Version) (candidate : Option Version) : List VersionRange → Option Version
  | [] => candidate
  | range :: rest =>
    if range.lower.any (fun lower => decide (limit < lower)) then
      candidate
    else
      match range.upper with
      | some upper => if upper < limit then walkUpTo limit (some upper) rest else some limit
      | none => some limit

/-- The newest version not above `limit` that a list of ranges offers: `limit`
itself when a range reaches it, otherwise the last upper bound met below it.
The walk ends at the first range that starts above `limit`. -/
def newestUpTo? (limit : Version) (ranges : List VersionRange) : Option Version :=
  walkUpTo limit none ranges

/-- The greatest of `versions` that lies within every range, the last one of
several equal ones. -/
def newestInAll? (ranges : List VersionRange) (versions : List Version) : Option Version :=
  maxLast? (versions.filter fun v => ranges.all (·.contains v))

end VersionRange

end DevSpecs
