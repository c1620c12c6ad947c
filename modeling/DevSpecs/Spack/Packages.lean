import DevSpecs.Json.Reader
import DevSpecs.Spec.Parse

/-!
# Installed packages

Spack lists installed packages as a JSON array.  A package is an object, of which
further members are ignored, or an array of its fields in order.  The compilers of
packages are ranked by their versions and then by their names, where a version
that cannot be read is below all others.
-/

namespace DevSpecs

/-- A compiler that packages are built with. -/
structure Compiler where
  name : Text
  version : Text
  deriving DecidableEq, Repr

namespace Compiler

/-- A compiler is written `name@version`. -/
def text (c : Compiler) : Text :=
  c.name ++ '@' :: c.version

/-- The rank of a compiler. -/
instance : Ord Compiler :=
  ⟨fun a b =>
    (compare (Version.ofText? a.version) (Version.ofText? b.version)).then
      (compare a.name b.name)⟩

/-- The compiler of the highest rank, the last of several. -/
def preferred? (cs : List Compiler) : Option Compiler :=
  maxLast? cs

end Compiler

structure InstalledPackage where
  name : Text
  version : Text
  hash : Text
  path : Option Text
  compiler : Option Compiler
  deriving DecidableEq, Repr

namespace InstalledPackage

/-! ## Reading members -/

/-- The value of a member, `none` inside when it is missing; a repeated member
makes the object unreadable. -/
def member? (members : List (Option Text × Json)) (name : Text) : Option (Option Json) :=
  match members.filter (·.1 == some name) with
  | [] => some none
  | [found] => some (some found.2)
  | _ => none

def textOf? : Json → Option Text
  | .str t => t
  | _ => none

/-- The text of a member that has to be there. -/
def textMember? (members : List (Option Text × Json)) (name : Text) : Option Text := do
  textOf? (← (← member? members name))

/-- Read a value of which null stands for nothing. -/
def orNull? {α : Type} (read : Json → Option α) : Json → Option (Option α)
  | .null => some none
  | value => (read value).map some

/-- Read a member that may be missing. -/
def optionalMember? {α : Type} (read : Json → Option α) (members : List (Option Text × Json))
    (name : Text) : Option (Option α) := do
  match ← member? members name with
  | none => return none
  | some value => orNull? read value

/-- Whether all names of members are texts. -/
def named (members : List (Option Text × Json)) : Bool :=
  members.all (·.1.isSome)

/-! ## Compilers and packages -/

def compilerOf? : Json → Option Compiler
  | .arr [name, version] => do
    return ⟨← textOf? name, ← textOf? version⟩
  | .obj members => do
    guard (named members)
    return ⟨← textMember? members "name", ← textMember? members "version"⟩
  | _ => none

/-- Read the items of an array that may be missing at its end. -/
def optionalItem? {α : Type} (read : Json → Option α) : Option Json → Option (Option α)
  | none => some none
  | some value => orNull? read value

def ofJson? : Json → Option InstalledPackage
  | .arr (name :: version :: hash :: rest) => do
    guard (rest.length ≤ 2)
    return {
      name := ← textOf? name
      version := ← textOf? version
      hash := ← textOf? hash
      path := ← optionalItem? textOf? rest[0]?
      compiler := ← optionalItem? compilerOf? rest[1]? }
  | .obj members => do
    guard (named members)
    return {
      name := ← textMember? members "name"
      version := ← textMember? members "version"
      hash := ← textMember? members "hash"
      path := ← optionalMember? textOf? members "prefix"
      compiler := ← optionalMember? compilerOf? members "compiler" }
  | _ => none

/-- The packages in a listing; a blank one lists none. -/
def listed? (output : Text) : Option (List InstalledPackage) :=
  if (Text.trim output).isEmpty then some []
  else
    match Json.parse? output with
    | some (.arr items) => items.mapM ofJson?
    | _ => none

/-- Packages in the order of their names; of several with one name, the last. -/
def byName (packages : List InstalledPackage) : List InstalledPackage :=
  (sortedDistinct (packages.map (·.name))).filterMap fun name =>
    packages.reverse.find? (·.name == name)

end InstalledPackage

end DevSpecs
