import DevSpecs.Json.Value

/-!
# Resolution modes
-/

namespace DevSpecs

/-- How a dependency is turned into the specs handed to Spack. -/
inductive Mode where
  /-- The declared ranges and the newest version that index and ranges agree on. -/
  | latest
  /-- Exactly the declared minimum version. -/
  | minimum
  /-- The declared ranges, for Spack to choose from. -/
  | any
  deriving DecidableEq, Repr

namespace Mode

instance : Inhabited Mode := ⟨latest⟩

def all : List Mode :=
  [latest, minimum, any]

/-- The name of a mode in configuration files and on the command line. -/
def name : Mode → Text
  | latest => "latest"
  | minimum => "minimum"
  | any => "any"

def ofName? (t : Text) : Option Mode :=
  all.find? (·.name = t)

/-- A mode as a JSON value: its name, or an object whose only member has that
name and the value null. -/
def ofJson? : Json → Option Mode
  | .str (some t) => ofName? t
  | .obj [(some t, .null)] => ofName? t
  | _ => none

end Mode

end DevSpecs
