import DevSpecs.Environment
import DevSpecs.Spack.Program
import DevSpecs.Template

/-!
# Projects

A project resolves the dependencies that its configuration declares and manages
the environments below its environments directory.

A resolution to the latest versions first asks the index about every dependency
that needs it, in the order of declaration.  The dependencies remember the answers,
so that resolving them asks nothing more.
-/

namespace DevSpecs

/-- A project: its configuration, and who answers its questions. -/
structure Project where
  config : Config
  /-- The package index, with the files at hand. -/
  index : FileTree → Index
  /-- Runs the commands of environments. -/
  runner : Runner

/-- Why an operation on a project fails. -/
inductive ProjectError where
  | spec (cause : SpecError)
  | resolve (cause : ResolveError)
  | environment (cause : EnvironmentError)
  | config (cause : ConfigError)
  deriving DecidableEq, Repr

def ProjectError.message : ProjectError → Text
  | spec cause => cause.message
  | resolve cause => cause.message
  | environment cause => cause.message
  | config cause => cause.message

/-- What continuous integration should do about a failure. -/
def integrationHint : Text :=
  "In CI: the reused merge-base image is out-of-date. Try updating the branch."

/-- The message of a failure, with the hint under continuous integration. -/
def withHint (message : Text) (integration : Bool) : Text :=
  if integration then message ++ "\n  " ++ integrationHint else message

structure Resolution where
  mode : Mode
  /-- The packages whose ranges were left open, in ascending order. -/
  unresolve : List Text
  groups : SpecGroups
  deriving DecidableEq, Repr

structure GeneratedEnvironment where
  name : Text
  resolution : Resolution
  files : Environment.Generated
  /-- Whether it has been installed as well. -/
  installed : Bool
  deriving DecidableEq, Repr

namespace Project

/-- The project of a configuration, with the directories where programs are
found. -/
def ofConfig (config : Config) (searchList : Text) : Project :=
  let program : Spack.Program := { name := config.spack, searchList }
  { config, index := program.index, runner := program.runner }

/-! ## Acting on a project -/

/-- What a project acts on. -/
structure Session where
  files : FileTree
  /-- The queries sent to the index, oldest first. -/
  history : History := []
  shown : Shown := {}

/-- An action that may fail; what it has done before stays done. -/
abbrev Acting := ExceptT ProjectError (StateM Session)

def orFail {ε α : Type} (error : ε → ProjectError) (result : Except ε α) : Acting α :=
  ExceptT.mk (pure (result.mapError error))

def querying {α : Type} (questions : Querying α) : Acting α :=
  ExceptT.mk fun session =>
    let (answer, history) := questions.run session.history
    (answer.mapError .resolve, { session with history })

/-- Act on an environment about which nothing is known yet. -/
def onEnvironment {α : Type} (action : Environment.Acting α) : Acting α :=
  ExceptT.mk fun session =>
    let (answer, after) := action.run { files := session.files }
    (answer.mapError .environment,
      { session with files := after.files, shown := session.shown.append after.shown })

/-! ## Resolving -/

/-- Whether a dependency needs an index to be resolved to its latest version. -/
def needsIndex (unresolve : List Text) (d : Dependency) : Bool :=
  d.constrained && !unresolve.contains d.package

/-- Ask the index about a dependency. -/
def consult (index : Index) (d : Dependency) : Dependency.Asking Unit := do
  let _ ← d.newestExternal index
  let _ ← d.newestVersion index

/-- Ask the index about every dependency that needs it. -/
def askAhead (ds : List Dependency) (unresolve : List Text) (index : Index) :
    Querying (List TrackedDependency) :=
  ds.mapM fun d => do
    let fresh : TrackedDependency := { dependency := d }
    if needsIndex unresolve d then
      let (_, learnt) ← fresh.ask (consult index d)
      return { fresh with learnt }
    else
      return fresh

/-- Resolve dependencies, the index being asked in advance if the mode needs it. -/
def resolveAhead (ds : List Dependency) (mode : Mode) (unresolve : List Text) (index : Index) :
    Querying SpecGroups := do
  let tracked ←
    if mode = .latest then askAhead ds unresolve index
    else pure (ds.map fun d => { dependency := d })
  resolveAll tracked mode unresolve index

/-- Resolve the declared dependencies.  A mode given here takes the place of the
configured one; packages given here are left open as well. -/
def resolve (p : Project) (mode : Option Mode) (unresolve : List Text) : Acting Resolution := do
  let ds ← orFail .config p.config.dependencies
  let mode := mode.getD p.config.mode
  let unresolve := sortedDistinct (p.config.unresolve ++ unresolve)
  let index := p.index (← get).files
  let groups ← querying (resolveAhead ds mode unresolve index)
  return { mode, unresolve, groups }

/-! ## Environments -/

def environment (p : Project) (name : Text) : Acting Environment := do
  orFail .environment (Environment.checkName name)
  orFail .environment <|
    Environment.openAt (← get).files (p.config.rootOf name) p.runner

/-- Resolve the dependencies and write an environment for them. -/
def generate (p : Project) (name : Text) (mode : Option Mode) (unresolve : List Text)
    (install : Bool) : Acting GeneratedEnvironment := do
  let env ← p.environment name
  let resolution ← p.resolve mode unresolve
  let template ← orFail .config (p.config.template (← get).files)
  let files ← onEnvironment (env.generate resolution.groups template)
  if install then
    onEnvironment env.install
  return { name, resolution, files, installed := install }

def install (p : Project) (name : Text) : Acting Unit := do
  let env ← p.environment name
  onEnvironment env.install

/-- The path of a command of the package that a spec names.  The first declared
dependency on that package takes the place of the spec. -/
def which (p : Project) (name command spec : Text) (argument : Option Text) : Acting Path := do
  let env ← p.environment name
  let requested ← orFail .spec (Dependency.parse spec none)
  let declared ← orFail .config (p.config.dependencyOn? requested.package)
  onEnvironment (env.which command (declared.getD requested).text argument)

/-- The compiler that builds in an environment should use. -/
def compiler (p : Project) (name : Text) : Acting (Option Compiler) := do
  let env ← p.environment name
  onEnvironment env.newestCompiler

end Project

end DevSpecs
