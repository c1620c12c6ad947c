import DevSpecs.Json.Printer
import DevSpecs.Project

/-!
# Reports for programs
-/

namespace DevSpecs

namespace Json

def texts (ts : List Text) : Json :=
  arr (ts.map text)

/-- The text of a value with a break at its end. -/
def document (v : Json) : Text :=
  print 0 v ++ ['\n']

end Json

def SpecGroup.toJson (g : SpecGroup) : Json :=
  .object [("when", .textOrNull g.when), ("specs", .texts g.specs)]

def Resolution.toJson (r : Resolution) : Json :=
  .object [("mode", .text r.mode.name), ("unresolve", .texts r.unresolve),
    ("groups", .arr (r.groups.map SpecGroup.toJson))]

def GeneratedEnvironment.toJson (g : GeneratedEnvironment) : Json :=
  .object [("name", .text g.name), ("root", .text g.files.root),
    ("manifest", .text g.files.manifest), ("lock_removed", .bool g.files.removedLock),
    ("installed", .bool g.installed), ("resolution", g.resolution.toJson)]

end DevSpecs
