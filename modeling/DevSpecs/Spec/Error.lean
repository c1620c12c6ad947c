import DevSpecs.Text.Basic

/-!
# Errors in specs

The causes for which a spec is refused, and their wording.
-/

namespace DevSpecs

/-- Why a version, a spec or a dependency is refused. -/
inductive SpecError where
  /-- The spec does not start with a package name. -/
  | missingPackage (spec : Text)
  /-- Ranges are declared but the first one has no lower bound. -/
  | missingMinimum (spec : Text)
  /-- A later range starts below the first one, or has no lower bound. -/
  | unorderedRanges (spec : Text)
  /-- A version bound names no version. -/
  | invalidVersion (version : Text)
  /-- A range is empty or has two colons. -/
  | invalidRange (spec range : Text)
  deriving DecidableEq, Repr

def SpecError.message : SpecError → Text
  | missingPackage spec => "spec '" ++ spec ++ "' does not start with a package name"
  | missingMinimum spec => "spec must declare a minimum version: '" ++ spec ++ "'"
  | unorderedRanges spec =>
    "version ranges in '" ++ spec ++ "' must ascend from the minimum version"
  | invalidVersion version => "invalid version '" ++ version ++ "'"
  | invalidRange spec range => "invalid version range '" ++ range ++ "' in '" ++ spec ++ "'"

end DevSpecs
