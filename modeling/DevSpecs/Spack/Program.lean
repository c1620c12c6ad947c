import DevSpecs.Command
import DevSpecs.Index
import DevSpecs.Process
import DevSpecs.Spack.Output
import DevSpecs.Yaml.Reader

/-!
# The Spack program

Spack is a program that is run with the files at hand.  It serves as the runner of
an environment's commands and as a package index.  As an index it is asked anew for
every query.
-/

namespace DevSpecs

namespace Spack

/-- A Spack executable, and the directories where programs are found. -/
structure Program where
  name : Text
  searchList : Text := []
  deriving DecidableEq, Repr

/-- A command as it is written in messages. -/
def commandLine (program : Text) (arguments : List Text) : Text :=
  Text.unwords (program :: arguments)

/-! ## As a runner -/

/-- Run a program for its output. -/
def capture (p : Program) (files : FileTree) (arguments : List Text) :
    Except CommandError Text :=
  let command := commandLine p.name arguments
  match Process.run files p.searchList p.name arguments with
  | .error cause => .error (.spawn command cause)
  | .ok outcome =>
    if outcome.ending.isSuccess then .ok (Utf8.decodeLenient outcome.output)
    else
      .error (.failed command outcome.ending.code?
        (Text.trim (Utf8.decodeLenient outcome.errors)))

/-- Run a program for its effect; what it prints is kept apart. -/
def perform (files : FileTree) (searchList program : Text) (arguments : List Text) : Reply :=
  let command := commandLine program arguments
  match Process.run files searchList program arguments with
  | .error cause => { result := .error (.spawn command cause) }
  | .ok outcome =>
    { result :=
        if outcome.ending.isSuccess then .ok []
        else .error (.failed command outcome.ending.code? [])
      shown := ⟨Utf8.decodeLenient outcome.output, Utf8.decodeLenient outcome.errors⟩ }

/-- The runner that runs the program.  What is written while installing goes to
the terminal. -/
def Program.runner (p : Program) : Runner where
  reply files _ call :=
    match call with
    | .install root => perform files p.searchList p.name ["-D", root, "install", "--fail-fast"]
    | .find root spec =>
      let arguments : List Text := ["-D", root, "find", "--json"]
      { result := capture p files (arguments ++ spec.toList) }
    | .load root spec => { result := capture p files ["-D", root, "load", "--sh", spec] }
    | .check program argument =>
      { result := (perform files p.searchList program [argument]).result }

/-! ## As an index -/

def indexName : Text := "spack"

def Program.ask (p : Program) (files : FileTree) (arguments : List Text) (package : Text) :
    Except IndexError Text :=
  let command := commandLine p.name arguments
  match Process.run files p.searchList p.name arguments with
  | .error cause =>
    .error (.queryFailed package indexName
      ("failed to run '" ++ command ++ "': " ++ cause.message))
  | .ok outcome =>
    if outcome.ending.isSuccess then
      (Utf8.decode outcome.output).mapError fun e =>
        .invalidResponse package indexName e.message
    else
      .error (.queryFailed package indexName
        ("'" ++ command ++ "' exited with " ++ outcome.ending.text ++ ": " ++
          Text.trim (Utf8.decodeLenient outcome.errors)))

def newestListed (package output : Text) : Except IndexError Version :=
  match maxLast? (listedVersions output) with
  | some newest => .ok newest
  | none => .error (.noVersions package indexName)

/-- The externals of a package in a configuration as it is printed. -/
def configuredExternals (package output : Text) : Except IndexError (List Version) :=
  match Yaml.parse output with
  | .ok config => .ok (externalVersions config package)
  | .error e =>
    .error (.invalidResponse package indexName
      ("failed to parse packages config: " ++ e.message))

def Program.index (p : Program) (files : FileTree) : Index where
  latest _ package := do
    newestListed package (← p.ask files ["versions", "--safe", package] package)
  externals _ package := do
    configuredExternals package (← p.ask files ["config", "get", "packages"] package)

end Spack

end DevSpecs
