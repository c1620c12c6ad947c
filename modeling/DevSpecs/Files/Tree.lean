import DevSpecs.Files.Failure
import DevSpecs.Files.Path
import DevSpecs.Text.Sorted
import DevSpecs.Text.Utf8

/-!
# Trees of files

A tree of files says what is at every location.  A location is the list of names
that lead to it, the last one first, so that the location of a directory's parent
is the tail of its own; the empty one is the root.

A path is followed name by name.  Every place it leads through has to be a
directory, while at its end there may be nothing; two dots lead to the parent.  At a
symbolic link the way goes on along the link's target.  A file may be at several
locations, and is then written at all of them.

Special files and permissions to use a file are left out: what is neither a directory
nor a link is a file that keeps what is written to it, and nothing fails because it is
not permitted.
-/

namespace DevSpecs

/-- What is at a location. -/
inductive Entry where
  /-- A file; one without text holds bytes that are not text. -/
  | file (text : Option Text) (executable : Bool)
  | directory
  /-- A symbolic link. -/
  | link (target : Path)
  deriving DecidableEq, Repr

/-- The names that lead to a place, the last one first. -/
abbrev Location := List Text

/-- The entry with another text in it, if it is a file. -/
def Entry.withText (text : Text) : Entry → Entry
  | file _ executable => file (some text) executable
  | entry => entry

/-- What is where, and the directory that relative paths start from. -/
structure FileTree where
  entries : List (Location × Entry) := []
  /-- The locations of one file, for each file that is at several ones. -/
  shared : List (List Location) := []
  current : Location := []
  deriving Repr

namespace FileTree

/-! ## Locations -/

/-- What is at a location; the root is always a directory. -/
def get? (t : FileTree) (location : Location) : Option Entry :=
  match location with
  | [] => some .directory
  | location => t.entries.lookup location

def set (t : FileTree) (location : Location) (entry : Entry) : FileTree :=
  { t with entries := (location, entry) :: t.entries.filter (·.1 != location) }

/-- Take away what is at a location. -/
def erase (t : FileTree) (location : Location) : FileTree :=
  { t with
    entries := t.entries.filter (·.1 != location)
    shared := t.shared.map (·.filter (· != location)) }

/-- Whether what is at the locations is one file. -/
def sameFile (t : FileTree) (location other : Location) : Bool :=
  other == location || t.shared.any fun places => places.contains location && places.contains other

/-- The tree with an empty file at a location where nothing has been. -/
def touch (t : FileTree) (location : Location) : FileTree :=
  if (t.get? location).isSome then t else t.set location (.file (some []) false)

/-- The tree with another text in the file at a location, which is made if it is missing;
a file that is there keeps its permissions. -/
def withText (t : FileTree) (location : Location) (text : Text) : FileTree :=
  let t := t.touch location
  { t with
    entries := t.entries.map fun (other, entry) =>
      (other, if t.sameFile location other then entry.withText text else entry) }

/-! ## Following paths -/

/-- The greatest length of a name, in bytes. -/
def maxName : Nat := 255

/-- The most links on a way. -/
def maxLinks : Nat := 40

/-- The names of a path, in which a slash at the end counts as a dot. -/
def steps (path : Path) : List Text :=
  let pieces := path.pieces
  pieces.filter (!·.isEmpty) ++ if pieces.getLast? == some [] then [['.']] else []

/-- The location where a path starts in a directory. -/
def startIn (here : Location) (path : Path) : Location :=
  if Path.isAbsolute path then [] else here

def startOf (t : FileTree) (path : Path) : Location :=
  startIn t.current path

/-- The location of a name in a directory; what is there may be a link. -/
def enter (t : FileTree) (here : Location) (name : Text) : Except Failure Location :=
  match t.get? here with
  | none => .error .notFound
  | some (.file ..) | some (.link _) => .error .notDirectory
  | some .directory =>
    if name == ['.'] then .ok here
    else if name == ['.', '.'] then .ok here.tail
    else if maxName < Utf8.byteCount name then .error .nameTooLong
    else .ok (name :: here)

/-- Follow names from a location up to a link, and go on from there as `onward` says:
along the target and the names that are left. -/
def walkWith (t : FileTree) (links : Nat)
    (onward : Location → List Text → Except Failure (Location × Nat)) :
    Location → List Text → Except Failure (Location × Nat)
  | here, [] => .ok (here, links)
  | here, name :: rest => do
    let there ← t.enter here name
    match t.get? there with
    | some (.link target) => onward (startIn here target) (steps target ++ rest)
    | _ => t.walkWith links onward there rest

/-- Follow names from a location, and no more than so many links.  The number of links
that may be followed from the end comes along. -/
def walk (t : FileTree) : Nat → Location → List Text → Except Failure (Location × Nat)
  | 0 => t.walkWith 0 fun _ _ => .error .tooManyLinks
  | links + 1 => t.walkWith (links + 1) (t.walk links)

/-- Follow names from a location, but no link at their end; the last name comes first. -/
def walkToLast (t : FileTree) (start : Location) : List Text → Except Failure Location
  | [] => .ok start
  | name :: before => do
    let (here, _) ← t.walk maxLinks start before.reverse
    t.enter here name

/-- Whether a path can be followed at all. -/
def checkPath (path : Path) : Except Failure Unit :=
  if path.isEmpty then .error .notFound
  else if path.contains '\x00' then .error .zeroInPath
  else .ok ()

/-- The location that a path leads to. -/
def locate (t : FileTree) (path : Path) : Except Failure Location := do
  checkPath path
  let (location, _) ← t.walk maxLinks (t.startOf path) (steps path)
  return location

/-- The location that a path names, at which there may be a link. -/
def locateLast (t : FileTree) (path : Path) : Except Failure Location := do
  checkPath path
  t.walkToLast (t.startOf path) (steps path).reverse

/-- What a path leads to. -/
def lookup (t : FileTree) (path : Path) : Except Failure Entry := do
  match t.get? (← t.locate path) with
  | some entry => return entry
  | none => throw .notFound

/-- The path of the directory that relative paths start from. -/
def currentPath (t : FileTree) : Path :=
  t.current.reverse.foldl Path.join ['/']

/-! ## Reading -/

def hasEntry (t : FileTree) (path : Path) : Bool :=
  (t.lookup path).toOption.isSome

def isDirectory (t : FileTree) (path : Path) : Bool :=
  (t.lookup path).toOption == some .directory

def isFile (t : FileTree) (path : Path) : Bool :=
  match t.lookup path with
  | .ok (.file ..) => true
  | _ => false

/-- Whether a path leads to a file that may be executed. -/
def isExecutable (t : FileTree) (path : Path) : Bool :=
  match t.lookup path with
  | .ok (.file _ executable) => executable
  | _ => false

def read (t : FileTree) (path : Path) : Except Failure Text := do
  match ← t.lookup path with
  | .file (some text) _ => return text
  | .file none _ => throw .notText
  | .directory => throw .isDirectory
  | .link _ => throw .tooManyLinks

/-! ## Writing -/

def write (t : FileTree) (path : Path) (text : Text) : Except Failure FileTree := do
  let location ← t.locate path
  match t.get? location with
  | some .directory => throw .isDirectory
  | some (.link _) => throw .tooManyLinks
  | _ => return t.withText location text

/-- Remove a file or a link. -/
def remove (t : FileTree) (path : Path) : Except Failure FileTree := do
  let location ← t.locateLast path
  match t.get? location with
  | some .directory => throw .isDirectory
  | some _ => return t.erase location
  | none => throw .notFound

/-- Make the directory that names lead to from a location; the last name comes
first. -/
def makeDirectory (t : FileTree) (start : Location) (names : List Text) :
    Except Failure FileTree := do
  let location ← t.walkToLast start names
  if (t.get? location).isSome then throw .fileExists
  return t.set location .directory

/-- Make a directory and, where they are missing, those it lies in.  Directories
that have been made stay when a later one fails. -/
def makeDirectories (t : FileTree) (start : Location) :
    List Text → FileTree × Except Failure Unit
  | [] => (t, .ok ())
  | name :: before =>
    let settled (t : FileTree) (cause : Failure) : FileTree × Except Failure Unit :=
      match t.walk maxLinks start (before.reverse ++ [name]) with
      | .ok (location, _) =>
        (t, if t.get? location == some .directory then .ok () else .error cause)
      | .error _ => (t, .error cause)
    match t.makeDirectory start (name :: before) with
    | .ok t => (t, .ok ())
    | .error cause =>
      if cause = .notFound then
        match t.makeDirectories start before with
        | (t, .error cause) => (t, .error cause)
        | (t, .ok ()) =>
          match t.makeDirectory start (name :: before) with
          | .ok t => (t, .ok ())
          | .error cause => settled t cause
      else settled t cause

/-- Make the directory that a path leads to, and those it lies in. -/
def makePath (t : FileTree) (path : Path) : FileTree × Except Failure Unit :=
  if path.contains '\x00' then (t, .error .zeroInPath)
  else t.makeDirectories (t.startOf path) path.names.reverse

/-! ## Searching -/

/-- The first path to an executable file among `command` in each directory of a
search list.  The directories are separated by colons. -/
def search (t : FileTree) (command list : Text) : Option Path :=
  ((list.splitOn ':').map (Path.join · command)).find? t.isExecutable

/-! ## Whole trees -/

/-- Put a file at a path, and directories where it needs them. -/
def plant (t : FileTree) (path : Path) (text : Text) (executable : Bool) : FileTree :=
  let t := (t.makePath (Path.directoryOf path)).1
  match t.locate path with
  | .ok location => t.set location (.file (some text) executable)
  | .error _ => t

/-- The path from one location to another below it, if it is; that of a directory
ends with a slash. -/
def pathBelow? (top : Location) (location : Location) (entry : Entry) : Option Path :=
  let depth := location.length - top.length
  if depth = 0 || location.drop depth != top then none
  else
    let path := ['/'].intercalate (location.take depth).reverse
    some (if entry = .directory then path ++ ['/'] else path)

/-- The paths from a location to everything below it, in order. -/
def below (t : FileTree) (top : Location) : List Path :=
  sortedDistinct (t.entries.filterMap fun (location, entry) => pathBelow? top location entry)

end FileTree

end DevSpecs
