import DevSpecs.Spec.Parse
import DevSpecs.Yaml.Value

/-!
# What Spack prints

This file reads the three plain-text answers of Spack:

* the listing of known versions, in any layout of lines and columns;
* the configuration of packages, which names prebuilt externals;
* the shell script that loads a package.
-/

namespace DevSpecs

namespace Spack

/-! ## Known versions -/

/-- The words of a listing that are not part of a status line. -/
def listedWords (output : Text) : List Text :=
  ((output.splitOn '\n').map Text.trim).flatMap fun line =>
    if (Text.dropStart? "==>" line).isSome then [] else Text.words line

/-- The versions in a listing, in the order written; other words are passed
over. -/
def listedVersions (output : Text) : List Version :=
  (listedWords output).filterMap Version.ofText?

/-! ## Externals -/

/-- The version of an external: the first lower bound in its spec. -/
def externalVersion? (external : Yaml) : Option Version := do
  let spec ← (← external.get? "spec").asText?
  match Spec.parse spec with
  | .ok parsed => parsed.ranges.findSome? VersionRange.lower
  | .error _ => none

/-- The versions of a package's externals in a configuration. -/
def externalVersions (config : Yaml) (package : Text) : List Version :=
  let externals := do
    let packages ← config.get? "packages"
    let settings ← packages.get? package
    (← settings.get? "externals").asItems?
  (externals.getD []).filterMap externalVersion?

/-! ## Exported variables -/

/-- The text inside a pair of quotes of one kind. -/
def insideQuotes? (quote : Char) (t : Text) : Option Text := do
  Text.dropEnd? [quote] (← Text.dropStart? [quote] t)

def withoutQuotes (t : Text) : Text :=
  (insideQuotes? '\'' t <|> insideQuotes? '"' t).getD t

/-- The name and the value that a statement exports. -/
def exported? (statement : Text) : Option (Text × Text) := do
  let (name, value) ← Text.cutAt '=' (← Text.dropStart? "export " (Text.trim statement))
  return (Text.trim name, withoutQuotes (Text.trim value))

/-- The value that a script exports for a variable; the last one counts.
Statements end at semicolons and breaks, also within quotes. -/
def exportedVariable? (script name : Text) : Option Text :=
  let assignments := (script.splitOnP fun c => c == ';' || c == '\n').filterMap exported?
  ((assignments.filter (·.1 == name)).getLast?).map Prod.snd

end Spack

end DevSpecs
