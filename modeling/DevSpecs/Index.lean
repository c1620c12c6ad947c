import DevSpecs.Version.Basic

/-!
# Package indexes

An index answers two kinds of query about a package: the newest version it
knows, and the versions that are available as prebuilt externals.  Its answer
may depend on the queries it has answered before, so an index is a function of
that history; a fixed index ignores it.
-/

namespace DevSpecs

/-- Why a query has no answer. -/
inductive IndexError where
  /-- The index could not be asked. -/
  | queryFailed (package index message : Text)
  /-- The index knows no version of the package. -/
  | noVersions (package index : Text)
  /-- The answer could not be understood. -/
  | invalidResponse (package index message : Text)
  deriving DecidableEq, Repr

def IndexError.message : IndexError → Text
  | queryFailed package index message =>
    "failed to query " ++ index ++ " for '" ++ package ++ "': " ++ message
  | noVersions package index => "no versions of '" ++ package ++ "' are known to " ++ index
  | invalidResponse package index message =>
    "invalid response from " ++ index ++ " for '" ++ package ++ "': " ++ message

/-- A query sent to an index. -/
inductive Query where
  | latest (package : Text)
  | externals (package : Text)
  deriving DecidableEq, Repr

/-- The queries sent so far, oldest first. -/
abbrev History := List Query

/-- A package index. -/
structure Index where
  /-- The newest known version of a package, after a history of queries. -/
  latest : History → Text → Except IndexError Version
  /-- The externals of a package, after a history of queries. -/
  externals : History → Text → Except IndexError (List Version)

namespace Index

/-- An index whose answers never change. -/
def Fixed (index : Index) : Prop :=
  (∀ h package, index.latest h package = index.latest [] package) ∧
    ∀ h package, index.externals h package = index.externals [] package

end Index

end DevSpecs
