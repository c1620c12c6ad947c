import DevSpecs.Files.Tree

/-!
# Running Spack for an environment

An environment is managed through four commands.  Who answers them may look at the
files and at the commands run before, so a runner is a function of both.  A
command that is run on the terminal may write there.
-/

namespace DevSpecs

/-- Why a command gives no answer. -/
inductive CommandError where
  /-- The command could not be started. -/
  | spawn (command : Text) (cause : Failure)
  /-- The command was not successful. -/
  | failed (command : Text) (code : Option Int) (stderr : Text)
  /-- The answer could not be understood. -/
  | invalidOutput (command message : Text)
  deriving DecidableEq, Repr

/-- The code of a failed command as it is added to a message. -/
def withCode : Option Int → Text
  | some code => " with code " ++ Text.ofInt code
  | none => []

def CommandError.message : CommandError → Text
  | spawn command cause => "failed to run '" ++ command ++ "': " ++ cause.message
  | failed command code stderr => "'" ++ command ++ "' failed" ++ withCode code ++ ": " ++ stderr
  | invalidOutput command message => "unexpected output from '" ++ command ++ "': " ++ message

/-- A command for the environment at a root. -/
inductive Call where
  /-- Install everything. -/
  | install (root : Path)
  /-- List the installed packages, or those that match a spec. -/
  | find (root : Path) (spec : Option Text)
  /-- Print a script that loads a package. -/
  | load (root : Path) (spec : Text)
  /-- Run a program to see that it responds. -/
  | check (program : Path) (argument : Text)
  deriving DecidableEq, Repr

/-- What has been written to the terminal. -/
structure Shown where
  output : Text := []
  errors : Text := []
  deriving DecidableEq, Repr

def Shown.append (a b : Shown) : Shown :=
  ⟨a.output ++ b.output, a.errors ++ b.errors⟩

/-- The answer to a command. -/
structure Reply where
  result : Except CommandError Text
  shown : Shown := {}

structure Runner where
  /-- The answer to a command, after the commands before it. -/
  reply : FileTree → List Call → Call → Reply

end DevSpecs
