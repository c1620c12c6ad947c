import DevSpecs.Spec.Root
import DevSpecs.Version.Range

/-!
# Reading specs

The list of a version token consists of items separated by commas.  An item is
`v` or `=v`, meaning exactly `v:v`, or `lower:upper` with either bound optional.
-/

namespace DevSpecs

namespace Version

/-- Read a version; the error names the text. -/
def parse (t : Text) : Except SpecError Version :=
  match ofText? t with
  | some v => .ok v
  | none => .error (.invalidVersion t)

end Version

/-- What a spec says: its package, its text without root versions, and the
declared ranges in the order written. -/
structure Spec where
  package : Text
  base : Text
  ranges : List VersionRange
  deriving BEq, Repr

namespace Spec

/-- Read a bound; a blank one is absent. -/
def boundOf (t : Text) : Except SpecError (Option Version) :=
  match Text.trim t with
  | [] => .ok none
  | bound => (Version.parse bound).map some

/-- Read one item of a token's list.  The error quotes the spec. -/
def rangeOf (spec item : Text) : Except SpecError VersionRange :=
  if item.isEmpty then
    .error (.invalidRange spec item)
  else
    match Text.cutAt ':' item with
    | some (lower, upper) =>
      if upper.contains ':' then
        .error (.invalidRange spec item)
      else do
        let lower ← boundOf lower
        let upper ← boundOf upper
        return ⟨lower, upper⟩
    | none => (Version.parse ((Text.dropStart? ['='] item).getD item)).map .exactly

/-- Read the list of a token. -/
def rangesOf (spec list : Text) : Except SpecError (List VersionRange) :=
  (list.splitOn ',').mapM fun item => rangeOf spec (Text.trim item)

/-- Read a spec. -/
def parse (text : Text) : Except SpecError Spec := do
  let spec := Text.trim text
  let package ← packageOf spec
  let ranges ← (Piece.tokens (pieces (rootAndNodes spec).1)).mapM (rangesOf spec)
  return ⟨package, withoutVersion spec, ranges.flatten⟩

end Spec

end DevSpecs
