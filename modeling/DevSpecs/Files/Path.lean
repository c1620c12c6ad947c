import DevSpecs.Text.Basic

/-!
# Paths

A path is a text in which slashes separate names.  An empty name or a single dot
adds nothing to a path, except for a dot at the start of a relative one.
-/

namespace DevSpecs

/-- A path as it is written. -/
abbrev Path := Text

namespace Path

def isAbsolute (path : Path) : Bool :=
  path.head? == some '/'

/-- What stands between the slashes. -/
def pieces (path : Path) : List Text :=
  path.splitOn '/'

/-- Whether a piece adds nothing. -/
def isVacuous (piece : Text) : Bool :=
  piece.isEmpty || piece == ['.']

/-- The names on a path, from the first on.  Two dots count as a name. -/
def names (path : Path) : List Text :=
  path.pieces.filter (!isVacuous ·)

/-- The path that leads along `path` from the end of `base`.  An absolute path
leads there from anywhere. -/
def join (base path : Path) : Path :=
  if isAbsolute path then path
  else if base.isEmpty || base.getLast? == some '/' then base ++ path
  else base ++ '/' :: path

/-- The pieces, the last one first, without vacuous ones at the end; the first
piece of a path is never vacuous. -/
def significant : List Text → List Text
  | [] => []
  | [first] => [first]
  | piece :: next :: before =>
    if isVacuous piece then significant (next :: before) else piece :: next :: before

/-- The path without its last name, as written; there is none above the root. -/
def parent? (path : Path) : Option Path :=
  match significant path.pieces.reverse with
  | [] => none
  | [first] => if first.isEmpty then none else some []
  | _ :: before =>
    let kept := (significant before).reverse
    some (if kept == [[]] then ['/'] else ['/'].intercalate kept)

/-- The directory that relative paths in a file are relative to. -/
def directoryOf (path : Path) : Path :=
  match parent? path with
  | none => ['.']
  | some [] => ['.']
  | some parent => parent

/-- The path without vacuous pieces, starting at the root.  A slash at its end
stays, and so do exactly two at its start; two dots are kept as well. -/
def absolute (current path : Path) : Path :=
  let start :=
    if !isAbsolute path then current
    else if path.take 2 == ['/', '/'] && path[2]? != some '/' then ['/', '/']
    else ['/']
  let full := path.names.foldl join start
  if path.getLast? == some '/' then join full [] else full

end Path

end DevSpecs
