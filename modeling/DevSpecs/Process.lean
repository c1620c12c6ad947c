import DevSpecs.Shell.Run

/-!
# Processes

A program is an executable script whose first line names a shell.  A program named
without a slash is looked for in the directories of the search list.
-/

namespace DevSpecs

namespace Process

/-- The interpreters that are shells. -/
def shells : List Text :=
  ["/bin/sh", "/usr/bin/sh", "/bin/dash", "/usr/bin/dash", "/bin/bash", "/usr/bin/bash",
    "/usr/bin/env sh", "/usr/bin/env bash"]

/-- The interpreter that the first line of a script names. -/
def interpreter? (script : Text) : Option Text := do
  let rest ← Text.dropStart? "#!" script
  return Text.unwords (Text.words (rest.takeWhile (· != '\n')))

/-- The failure to start a script whose interpreter is no shell. -/
def unusable (files : FileTree) (interpreter : Text) : Failure :=
  match files.lookup (interpreter.takeWhile (· != ' ')) with
  | .error cause => cause
  | .ok (.file _ true) => .notExecutable
  | .ok _ => .notPermitted

def runAt (files : FileTree) (path : Path) (arguments : List Text) : Except Failure Outcome := do
  match ← files.lookup path with
  | .file (some script) true =>
    match interpreter? script with
    | none => throw .notExecutable
    | some interpreter =>
      if shells.contains interpreter then return Shell.execute files path script arguments
      else throw (unusable files interpreter)
  | .file none true => throw .notExecutable
  | _ => throw .notPermitted

/-- Run a program, with a list of directories to search. -/
def run (files : FileTree) (searchList program : Text) (arguments : List Text) :
    Except Failure Outcome :=
  if (program :: arguments).any (·.contains '\x00') then .error .zeroInCommand
  else if program.contains '/' then runAt files program arguments
  else
    match if program.isEmpty then none else files.search program searchList with
    | some path => runAt files path arguments
    | none => .error .notFound

end Process

namespace Ending

def isSuccess (e : Ending) : Bool :=
  e == .code 0

/-- The code of a program that was not ended by a signal. -/
def code? : Ending → Option Int
  | .code n => some n
  | .signal _ => none

/-- How an ending is described. -/
def text : Ending → Text
  | .code n => "exit status: " ++ Text.ofNat n
  | .signal n =>
    let name : Text :=
      match Shell.signalNames[n - 1]? with
      | some name => if n = 0 then [] else " (SIG" ++ name.toList ++ ")"
      | none => []
    "signal: " ++ Text.ofNat n ++ name

end Ending

end DevSpecs
