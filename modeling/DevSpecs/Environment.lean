import DevSpecs.Command
import DevSpecs.Manifest
import DevSpecs.Spack.Output
import DevSpecs.Spack.Packages

/-!
# Managed environments

An environment is a directory that holds a manifest, an ignore file and, once it
has been installed, a lock.  Generating an environment writes the first two and
removes the lock, so that the next installation starts from the new manifest.

The listing of installed packages is asked for once and then remembered; a
listing that failed or could not be read is not.
-/

namespace DevSpecs

/-- Why an operation on an environment fails. -/
inductive EnvironmentError where
  /-- The root is there and is no directory. -/
  | conflict (path : Path)
  | invalidName (name reason : Text)
  | io (path : Path) (cause : Failure)
  /-- The manifest cannot be written as text. -/
  | manifest (path : Path) (message : Text)
  | installFailed (code : Option Int)
  /-- No directory of the search list has the command. -/
  | commandNotFound (name list : Text)
  /-- The program that was found did not respond. -/
  | checkFailed (program : Path) (argument : Text) (code : Option Int)
  | packageNotFound (spec : Text)
  | ambiguousPackage (spec : Text) (count : Nat)
  | command (cause : CommandError)
  deriving DecidableEq, Repr

def EnvironmentError.message : EnvironmentError → Text
  | conflict path => "environment root exists and is not a directory: " ++ path
  | invalidName name reason => "invalid environment name '" ++ name ++ "': " ++ reason
  | io path cause => "IO error at " ++ path ++ ": " ++ cause.message
  | manifest path message => "failed to write manifest " ++ path ++ ": " ++ message
  | installFailed code =>
    "spack install failed with code " ++ (code.map Text.ofInt).getD "unknown"
  | commandNotFound name list => "unable to find " ++ name ++ " in path " ++ list
  | checkFailed program argument code =>
    program ++ ' ' :: argument ++ " failed" ++ withCode code
  | packageNotFound spec => "no installed package matches '" ++ spec ++ "'"
  | ambiguousPackage spec count =>
    "'" ++ spec ++ "' matches " ++ Text.ofNat count ++ " installed packages"
  | command cause => cause.message

/-- An environment and who runs its commands. -/
structure Environment where
  root : Path
  runner : Runner

namespace Environment

/-! ## Names and paths -/

/-- Whether a name may be that of an environment. -/
def checkName (name : Text) : Except EnvironmentError Unit :=
  if name.isEmpty then .error (.invalidName name "name must not be empty")
  else if name.contains '/' then
    .error (.invalidName name "slashes are invalid in environment names")
  else if name.head? == some '_' then
    .error (.invalidName name "names starting with '_' are reserved for internal use")
  else .ok ()

def manifestFile : Text := "spack.yaml"

def lockFile : Text := "spack.lock"

def ignoreFile : Text := ".gitignore"

/-- The text of the ignore file: of the directory only the manifest is kept. -/
def ignoreText : Text := "# File created by spackdev\n/**\n!/spack.yaml\n"

def manifestPath (env : Environment) : Path :=
  env.root.join manifestFile

def lockPath (env : Environment) : Path :=
  env.root.join lockFile

def ignorePath (env : Environment) : Path :=
  env.root.join ignoreFile

/-- The environment at a path.  Nothing needs to be there, but what is there has
to be a directory. -/
def openAt (files : FileTree) (path : Path) (runner : Runner) :
    Except EnvironmentError Environment :=
  if path.isEmpty then .error (.io path .emptyPath)
  else
    let root := Path.absolute files.currentPath path
    if files.hasEntry root && !files.isDirectory root then .error (.conflict root)
    else .ok ⟨root, runner⟩

/-- Whether the environment has a manifest and a lock. -/
def isInstalled (env : Environment) (files : FileTree) : Bool :=
  files.isDirectory env.root && files.isFile env.manifestPath && files.isFile env.lockPath

/-! ## Acting on an environment -/

/-- What an environment acts on, and what it knows. -/
structure Session where
  files : FileTree
  /-- The commands run, oldest first. -/
  calls : List Call := []
  /-- The installed packages, once they have been listed. -/
  packages : Option (List InstalledPackage) := none
  shown : Shown := {}

/-- An action that may fail; what it has done before stays done. -/
abbrev Acting := ExceptT EnvironmentError (StateM Session)

/-- Run a file operation and keep the changed files. -/
def onFiles (path : Path) (operation : FileTree → FileTree × Except Failure Unit) :
    Acting Unit := do
  let session ← get
  let (files, result) := operation session.files
  set { session with files := files }
  match result with
  | .ok () => return ()
  | .error cause => throw (.io path cause)

/-- A file operation that changes nothing when it fails. -/
def orNothing (operation : FileTree → Except Failure FileTree) (files : FileTree) :
    FileTree × Except Failure Unit :=
  match operation files with
  | .ok files => (files, .ok ())
  | .error cause => (files, .error cause)

def call (env : Environment) (c : Call) : Acting (Except CommandError Text) := do
  let session ← get
  let reply := env.runner.reply session.files session.calls c
  set { session with
    calls := session.calls ++ [c]
    shown := session.shown.append reply.shown }
  return reply.result

/-! ## Generating -/

/-- What has been generated. -/
structure Generated where
  root : Path
  manifest : Path
  /-- How many groups the manifest defines. -/
  groups : Nat
  /-- How many specs there are in them. -/
  specs : Nat
  /-- Whether a lock was removed. -/
  removedLock : Bool
  deriving DecidableEq, Repr

/-- Why a manifest has no text. -/
def unwritable : Text := "serializing nested enums in YAML is not supported yet"

def removeLock (env : Environment) : Acting Bool := do
  let session ← get
  match session.files.remove env.lockPath with
  | .ok files => do
    set { session with files := files }
    return true
  | .error cause => if cause = .notFound then return false else throw (.io env.lockPath cause)

/-- Write the manifest for groups of specs and a template, and the ignore file;
then remove the lock. -/
def generate (env : Environment) (groups : SpecGroups) (template : Option Yaml.Entries) :
    Acting Generated := do
  onFiles env.root (·.makePath env.root)
  match (Manifest.build groups (template.getD [])).print? with
  | none => throw (.manifest env.manifestPath unwritable)
  | some text => onFiles env.manifestPath (orNothing (·.write env.manifestPath text))
  onFiles env.ignorePath (orNothing (·.write env.ignorePath ignoreText))
  let removedLock ← env.removeLock
  return ⟨env.root, env.manifestPath, groups.length, groups.countSpecs, removedLock⟩

/-! ## Installing and asking -/

def install (env : Environment) : Acting Unit := do
  match ← env.call (.install env.root) with
  | .ok _ => return ()
  | .error (.failed _ code _) => throw (.installFailed code)
  | .error cause => throw (.command cause)

def listed (output : Text) : Acting (List InstalledPackage) :=
  match InstalledPackage.listed? output with
  | some packages => return packages
  | none => throw (.command (.invalidOutput "spack find --json" "not a list of packages"))

/-- All installed packages by name. -/
def packages (env : Environment) : Acting (List InstalledPackage) := do
  if let some packages := (← get).packages then
    return packages
  match ← env.call (.find env.root none) with
  | .error cause => throw (.command cause)
  | .ok output => do
    let packages := InstalledPackage.byName (← listed output)
    modify fun session => { session with packages := some packages }
    return packages

/-- The compiler that builds in the environment should use.  There is none before
the environment has been installed. -/
def newestCompiler (env : Environment) : Acting (Option Compiler) := do
  if !env.isInstalled (← get).files then
    return none
  return Compiler.preferred? ((← env.packages).filterMap (·.compiler))

/-- The only installed package that matches a spec. -/
def package (env : Environment) (spec : Text) : Acting InstalledPackage := do
  match ← env.call (.find env.root (some spec)) with
  | .error (.failed ..) => throw (.packageNotFound spec)
  | .error cause => throw (.command cause)
  | .ok output =>
    match ← listed output with
    | [] => throw (.packageNotFound spec)
    | [package] => return package
    | packages => throw (.ambiguousPackage spec packages.length)

/-- See that a program responds to an argument. -/
def check (env : Environment) (program : Path) (argument : Text) : Acting Unit := do
  match ← env.call (.check program argument) with
  | .ok _ => return ()
  | .error (.failed _ code _) => throw (.checkFailed program argument code)
  | .error cause => throw (.command cause)

/-- The path of a command of the installed package that matches a spec.  With an
argument the program found has to respond to it. -/
def which (env : Environment) (command spec : Text) (argument : Option Text) : Acting Path := do
  let package ← env.package spec
  let script ←
    match ← env.call (.load env.root ('/' :: package.hash)) with
    | .ok script => pure script
    | .error cause => throw (.command cause)
  let list ←
    match Spack.exportedVariable? script "PATH" with
    | some list => pure list
    | none => throw (.command (.invalidOutput "spack load --sh" "no PATH exported"))
  let program ←
    match (← get).files.search command list with
    | some program => pure program
    | none => throw (.commandNotFound command list)
  if let some argument := argument then
    env.check program argument
  return program

end Environment

end DevSpecs
