import DevSpecs.Resolution
import DevSpecs.Yaml.Printer

/-!
# Environment manifests

A manifest is a mapping with the single key `spack`.  Its section is a template
adjusted to a resolution:

* `view` is `false` unless the template says otherwise;
* `concretizer` is a mapping in which `unify` is `true`;
* `definitions` holds the template's clauses without those that define `_dev`,
  followed by one clause that defines `_dev` per group of specs;
* `specs` refers to the definition by `$_dev`.

Keys of the template keep their places.
-/

namespace DevSpecs

namespace Manifest

open Yaml (Entries)

/-- Name of the definition that holds the resolved specs. -/
def ownDefinition : Text := "_dev"

/-- Reference to that definition. -/
def ownReference : Text := "$_dev"

/-- Whether a clause defines `_dev`. -/
def isOwnClause (clause : Yaml) : Bool :=
  clause.asEntries?.any (·.hasKey (.str ownDefinition))

def clauseOf (group : SpecGroup) : Yaml :=
  .map <|
    (.str ownDefinition, .seq (group.specs.map .str)) ::
      group.when.toList.map fun predicate => (.str "when", .str predicate)

/-- The section with a view chosen. -/
def withView (section_ : Entries) : Entries :=
  if section_.hasKey (.str "view") then section_ else section_.put (.str "view") (.bool false)

/-- A concretizer that unifies.  A mapping under a tag is left alone. -/
def unified : Option Yaml → Yaml
  | some (.map entries) => .map (Entries.put entries (.str "unify") (.bool true))
  | some (.tagged tag value) =>
    if value.asEntries?.isSome then .tagged tag value
    else .map [(.str "unify", .bool true)]
  | _ => .map [(.str "unify", .bool true)]

/-- The template's clauses that a new resolution keeps. -/
def keptClauses : Option Yaml → List Yaml
  | some (.seq clauses) => clauses.filter (!isOwnClause ·)
  | _ => []

/-- Specs that refer to the definition of the resolved ones.  A sequence under a tag is
left alone. -/
def referring : Option Yaml → Yaml
  | some (.seq specs) =>
    if specs.any (·.asText? == some ownReference) then .seq specs
    else .seq (specs ++ [.str ownReference])
  | some (.tagged tag value) =>
    if value.asItems?.isSome then .tagged tag value else .seq [.str ownReference]
  | _ => .seq [.str ownReference]

/-- Replace the value of a key by what `change` makes of it. -/
def adjust (key : Text) (change : Option Yaml → Yaml) (section_ : Entries) : Entries :=
  section_.put (.str key) (change (section_.get? (.str key)))

/-- The section below `spack` for a resolution and a template. -/
def sectionOf (groups : SpecGroups) (template : Entries) : Entries :=
  let clauses := groups.map clauseOf
  adjust "specs" referring <|
    adjust "definitions" (fun old => .seq (keptClauses old ++ clauses)) <|
      adjust "concretizer" unified <| withView template

def build (groups : SpecGroups) (template : Entries) : Entries :=
  [(.str "spack", .map (sectionOf groups template))]

end Manifest

end DevSpecs
