import DevSpecs.Project
import DevSpecs.Report.Style

/-!
# Reports for readers

A resolution is listed group by group, with a summary at the end.  The quiet form
has one spec per line and nothing else, the verbose one names the packages whose
ranges were left open.  Headings, specs and summaries have styles if these are wanted.
-/

namespace DevSpecs

inductive Verbosity where
  | quiet
  | normal
  | verbose
  deriving DecidableEq, Repr

namespace Verbosity

instance : Inhabited Verbosity := ⟨normal⟩

/-- The verbosity that two flags ask for; being quiet wins. -/
def ofFlags (verbose quiet : Bool) : Verbosity :=
  if quiet then .quiet else if verbose then .verbose else .normal

end Verbosity

/-- A line with its break. -/
def lineOf (t : Text) : Text :=
  t ++ ['\n']

/-- A count with its noun. -/
def counted (n : Nat) (noun : Text) : Text :=
  Text.ofNat n ++ ' ' :: noun ++ (if n = 1 then [] else ['s'])

/-- How many specs there are in how many groups. -/
def Resolution.summary (r : Resolution) : Text :=
  counted r.groups.countSpecs "spec" ++ " in " ++ counted r.groups.length "group" ++
    " (" ++ r.mode.name ++ ")"

structure Formatter where
  verbosity : Verbosity
  /-- Whether the reports have styles. -/
  color : Bool
  /-- What puts a text in a style. -/
  paint : Style → Text → Text := Style.paint

namespace Formatter

/-! ## Groups -/

def heading (f : Formatter) (when : Option Text) : Text :=
  match when, f.color with
  | none, true => f.paint .bold "Dependencies" ++ ":"
  | none, false => "Dependencies:"
  | some predicate, true => f.paint .bold "When" ++ ' ' :: f.paint .cyan predicate ++ ":"
  | some predicate, false => "When " ++ predicate ++ ":"

/-- The line of a spec below the heading of its group. -/
def specLine (f : Formatter) (spec : Text) : Text :=
  if f.color then "  " ++ f.paint .green spec else "  " ++ spec

/-- Every group below its heading. -/
def listing (f : Formatter) (groups : SpecGroups) : Text :=
  groups.flatMap fun g =>
    lineOf (f.heading g.when) ++ g.specs.flatMap fun spec => lineOf (f.specLine spec)

/-- One spec per line, with its predicate if it has one. -/
def quietListing (groups : SpecGroups) : Text :=
  groups.flatMap fun g => g.specs.flatMap fun spec =>
    match g.when with
    | some predicate => lineOf (spec ++ " (when " ++ predicate ++ ")")
    | none => lineOf spec

/-! ## Reports -/

/-- The packages whose ranges were left open, if that is to be reported. -/
def unresolved (f : Formatter) (packages : List Text) : Text :=
  if f.verbosity = .verbose && !packages.isEmpty then
    lineOf ("Unresolved: " ++ (", ".toList).intercalate packages)
  else []

def resolution (f : Formatter) (r : Resolution) : Text :=
  if f.verbosity = .quiet then quietListing r.groups
  else if r.groups.isEmpty then lineOf "No dependencies configured"
  else
    f.listing r.groups ++ lineOf [] ++ f.unresolved r.unresolve ++
      lineOf (if f.color then f.paint .dimmed r.summary else r.summary)

/-- The report on an environment; a mark stands before its heading only if there are
styles. -/
def generated (f : Formatter) (g : GeneratedEnvironment) : Text :=
  if f.verbosity = .quiet then lineOf g.files.root
  else
    let listing :=
      if f.verbosity = .verbose then f.listing g.resolution.groups ++ lineOf [] else []
    let heading := "Generated environment '" ++ g.name ++ "'"
    let marked :=
      if f.color then f.paint .green "✓" ++ ' ' :: f.paint .bold heading else heading
    let lock := if g.files.removedLock then lineOf "  removed stale spack.lock" else []
    let installed := if g.installed then lineOf "  installed" else []
    listing ++ lineOf marked ++ lineOf ("  manifest: " ++ g.files.manifest) ++ lock ++
      lineOf ("  " ++ g.resolution.summary) ++ installed

end Formatter

end DevSpecs
