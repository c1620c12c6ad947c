import DevSpecs.Dependency
import DevSpecs.Files.Tree
import DevSpecs.Toml.Reader

/-!
# Project configurations

A configuration is a TOML document with no other keys than these:

* `environments_dir`, the directory that holds the environments;
* `templates`, the files that environments start from;
* `unresolve`, the packages whose ranges are left open;
* `mode`, the mode of resolution;
* `spack`, the Spack executable;
* `dependency`, the declared dependencies.

Relative paths start from the directory that holds the configuration.
-/

namespace DevSpecs

/-- A dependency as it is declared. -/
structure Declaration where
  spec : Text
  when : Option Text := none
  deriving DecidableEq, Repr

/-- A project's configuration. -/
structure Config where
  environments : Path := "dev-envs"
  templates : List Path := []
  /-- In ascending order. -/
  unresolve : List Text := []
  mode : Mode := .latest
  spack : Text := "spack"
  declarations : List Declaration := []
  /-- The file that holds the configuration. -/
  path : Path := "spackdev.toml"
  deriving DecidableEq, Repr

/-- Why a configuration or what it refers to cannot be used. -/
inductive ConfigError where
  | read (path : Path) (cause : Failure)
  /-- The file is no TOML document, or no configuration. -/
  | toml (path : Path) (message : Text)
  /-- The template is no YAML document. -/
  | yaml (path : Path) (message : Text)
  | templateNotMapping (path : Path)
  | dependency (path : Path) (cause : SpecError)
  deriving DecidableEq, Repr

def ConfigError.message : ConfigError → Text
  | read path cause => "failed to read " ++ path ++ ": " ++ cause.message
  | toml path message => "failed to parse TOML in " ++ path ++ ": " ++ message
  | yaml path message => "failed to parse YAML template " ++ path ++ ": " ++ message
  | templateNotMapping path => "template " ++ path ++ " must be a mapping"
  | dependency path cause => "invalid dependency in " ++ path ++ ": " ++ cause.message

/-! ## Reading declarations -/

/-- Whether a table has no other keys than the given ones. -/
def Toml.hasOnly (keys : List Text) (entries : Toml.Entries) : Bool :=
  entries.all fun entry => keys.contains entry.1

/-- Read the value of a key, if there is one. -/
def Toml.member? {α : Type} (entries : Toml.Entries) (key : Text) (read : Toml → Option α) :
    Option (Option α) :=
  match entries.lookup key with
  | none => some none
  | some value => (read value).map some

def Toml.asTexts? (v : Toml) : Option (List Text) := do
  (← v.asItems?).mapM Toml.asText?

/-- The mode that a value names: by its name, or by a table whose only key is that
name, with nothing under it. -/
def Mode.ofToml? : Toml → Option Mode
  | .str t => ofName? t
  | .table [(key, value)] => if value.isEmpty then ofName? key else none
  | _ => none

namespace Declaration

/-- A declaration is a table, or an array that starts with its fields in order. -/
def ofToml? : Toml → Option Declaration
  | .table entries => do
    guard (Toml.hasOnly ["spec", "when"] entries)
    let spec ← (← Toml.member? entries "spec" Toml.asText?)
    return { spec, when := ← Toml.member? entries "when" Toml.asText? }
  | .arr (spec :: rest) => do
    return { spec := ← spec.asText?, when := ← rest.head?.mapM Toml.asText? }
  | _ => none

def dependency (d : Declaration) : Except SpecError Dependency :=
  Dependency.parse d.spec d.when

end Declaration

namespace Config

/-- The name of the file that holds a configuration. -/
def fileName : Text := "spackdev.toml"

/-- The keys of a configuration. -/
def keys : List Text :=
  ["environments_dir", "templates", "unresolve", "mode", "spack", "dependency"]

def declarationsOf? (v : Toml) : Option (List Declaration) := do
  (← v.asItems?).mapM Declaration.ofToml?

/-- The configuration that a document is. -/
def ofToml? (path : Path) (entries : Toml.Entries) : Option Config := do
  guard (Toml.hasOnly keys entries)
  let environments ← Toml.member? entries "environments_dir" Toml.asText?
  let templates ← Toml.member? entries "templates" Toml.asTexts?
  let unresolve ← Toml.member? entries "unresolve" Toml.asTexts?
  let mode ← Toml.member? entries "mode" Mode.ofToml?
  let spack ← Toml.member? entries "spack" Toml.asText?
  let declarations ← Toml.member? entries "dependency" declarationsOf?
  let standard : Config := {}
  return {
    environments := environments.getD standard.environments
    templates := templates.getD standard.templates
    unresolve := sortedDistinct (unresolve.getD standard.unresolve)
    mode := mode.getD standard.mode
    spack := spack.getD standard.spack
    declarations := declarations.getD standard.declarations
    path }

/-- Read a configuration that is held by the file at a path. -/
def parse (path : Path) (text : Text) : Except ConfigError Config :=
  match Toml.parse text with
  | .error e => .error (.toml path e.message)
  | .ok entries =>
    match ofToml? path entries with
    | some config => .ok config
    | none => .error (.toml path "the document is no configuration")

def load (files : FileTree) (path : Path) : Except ConfigError Config :=
  match files.read path with
  | .error cause => .error (.read path cause)
  | .ok text => parse path text

/-! ## Paths -/

/-- The directory that relative paths start from. -/
def directory (c : Config) : Path :=
  Path.directoryOf c.path

/-- The path that a path in the configuration means. -/
def locate (c : Config) (path : Path) : Path :=
  Path.join c.directory path

/-- The root of the environment with a name. -/
def rootOf (c : Config) (name : Text) : Path :=
  Path.join (c.locate c.environments) name

/-! ## Dependencies -/

def dependencies (c : Config) : Except ConfigError (List Dependency) :=
  (c.declarations.mapM Declaration.dependency).mapError (.dependency c.path)

/-- The first declared dependency on a package. -/
def dependencyOn? (c : Config) (package : Text) : Except ConfigError (Option Dependency) :=
  c.dependencies.map fun ds => ds.find? (·.package = package)

end Config

end DevSpecs
