import DevSpecs.Program

/-!
# The outer layer

The program runs on the files below the current directory.  They are read at the
start, and what has changed is written at the end.  Whether a file may be executed
is not asked: a file that names its interpreter may.
-/

namespace DevSpecs

namespace Main

/-- Files that are larger are not read. -/
def maxBytes : Nat := Nat.pow 2 20

/-- The entry of a file with these bytes. -/
def fileOf (bytes : ByteArray) : Entry :=
  let text := (String.fromUTF8? bytes).map String.toList
  .file text ((text.bind (Text.dropStart? "#!")).isSome)

/-- What is at a place in a directory, and everything below it. -/
partial def entriesAt (found : IO.FS.DirEntry) (directory : Location) :
    IO (List (Location × Entry)) := do
  let location := found.fileName.toList :: directory
  let metadata ← found.path.symlinkMetadata
  match metadata.type with
  | .dir => do
    let mut entries := [(location, Entry.directory)]
    for inner in ← found.path.readDir do
      entries := entries ++ (← entriesAt inner location)
    return entries
  | .file =>
    if maxBytes < metadata.byteSize.toNat then
      return [(location, .file none false)]
    else
      return [(location, fileOf (← IO.FS.readBinFile found.path))]
  | .symlink => do
    -- A link that leads nowhere has no real path, and is left out.
    try
      let target ← IO.FS.realPath found.path
      return [(location, .link target.toString.toList)]
    catch _ => return []
  | _ => return []

/-- The files below the current directory. -/
def readFiles : IO FileTree := do
  let here ← IO.currentDir
  let path := here.toString.toList
  let empty := (FileTree.makePath {} path).1
  let current := (Path.names path).reverse
  let mut entries := empty.entries
  for found in ← here.readDir do
    entries := entries ++ (← entriesAt found current)
  return { entries, current }

def pathOf (location : Location) : String :=
  String.ofList ('/' :: ['/'].intercalate location.reverse)

/-- Write what has changed. -/
def writeFiles (before after : FileTree) : IO Unit := do
  for (location, _) in before.entries do
    if (after.get? location).isNone then
      IO.FS.removeFile (pathOf location)
  for (location, entry) in after.entries do
    if before.get? location != some entry then
      match entry with
      | .directory => IO.FS.createDirAll (pathOf location)
      | .link _ => pure ()
      | .file text _ => do
        IO.FS.createDirAll (pathOf location.tail)
        IO.FS.writeFile (pathOf location) (String.ofList (text.getD []))

def start (arguments : List String) : IO UInt32 := do
  let files ← readFiles
  let stdout ← IO.getStdout
  let stderr ← IO.getStderr
  let surroundings : Program.Surroundings :=
    { files
      searchList := ((← IO.getEnv "PATH").getD "").toList
      ciVariable := (← IO.getEnv "CI").map String.toList
      color := ← stdout.isTty }
  let result := Program.run surroundings (arguments.map String.toList)
  stdout.putStr (String.ofList result.shown.output)
  stderr.putStr (String.ofList result.shown.errors)
  writeFiles files result.files
  return UInt32.ofNat result.code

end Main

end DevSpecs

def main (arguments : List String) : IO UInt32 :=
  DevSpecs.Main.start arguments
