import DevSpecs.Environment

/-!
# The words of the command line

A command line has options and a command with operands.  An option is a flag, or a
setting that takes a value.  Some options may stand before the command as well as
after it.
-/

namespace DevSpecs

namespace CommandLine

/-- An option without a value. -/
inductive Flag where
  | verbose
  | quiet
  | integration
  | json
  | latest
  | minimum
  | any
  | install
  | noCheck
  | help
  | version
  deriving DecidableEq, Repr

namespace Flag

/-- The name after two dashes. -/
def name : Flag → Text
  | verbose => "verbose"
  | quiet => "quiet"
  | integration => "ci"
  | json => "json"
  | latest => "latest"
  | minimum => "minimum"
  | any => "any"
  | install => "install"
  | noCheck => "no-check"
  | help => "help"
  | version => "version"

/-- The letter after one dash. -/
def letter? : Flag → Option Char
  | quiet => some 'q'
  | help => some 'h'
  | version => some 'V'
  | _ => none

def mode? : Flag → Option Mode
  | latest => some .latest
  | minimum => some .minimum
  | any => some .any
  | _ => none

end Flag

/-- An option with a value. -/
inductive Setting where
  | config
  | unresolve
  | checkArg
  deriving DecidableEq, Repr

namespace Setting

/-- The name after two dashes. -/
def name : Setting → Text
  | config => "config"
  | unresolve => "unresolve"
  | checkArg => "check-arg"

/-- Whether the setting may be given more than once. -/
def repeats : Setting → Bool
  | unresolve => true
  | _ => false

/-- Whether any word that follows is the value, also one that starts with a dash. -/
def takesAnyWord : Setting → Bool
  | checkArg => true
  | _ => false

end Setting

/-- What a command does. -/
inductive Verb where
  | resolve
  | generate
  | install
  | which
  | compiler
  deriving DecidableEq, Repr

namespace Verb

def all : List Verb :=
  [resolve, generate, install, which, compiler]

def name : Verb → Text
  | resolve => "resolve"
  | generate => "generate"
  | install => "install"
  | which => "which"
  | compiler => "compiler"

def ofName? (t : Text) : Option Verb :=
  all.find? (·.name = t)

end Verb

/-- What may stand before the command, or after it. -/
structure Level where
  flags : List Flag
  settings : List Setting
  /-- How many operands there are; the first one is the name of an environment. -/
  operands : Nat
  /-- Whether a command is to follow. -/
  hasCommand : Bool
  deriving DecidableEq, Repr

namespace Level

/-- The flags that may stand anywhere. -/
def globalFlags : List Flag :=
  [.verbose, .quiet, .integration, .help]

/-- What may stand before the command. -/
def start : Level where
  flags := globalFlags ++ [.version]
  settings := [.config]
  operands := 0
  hasCommand := true

/-- The flags that select a mode. -/
def modeFlags : List Flag :=
  [.latest, .minimum, .any]

/-- What may stand after a verb. -/
def after : Verb → Level
  | .resolve => ⟨globalFlags ++ modeFlags ++ [.json], [.config, .unresolve], 0, false⟩
  | .generate => ⟨globalFlags ++ modeFlags ++ [.install], [.config, .unresolve], 1, false⟩
  | .install => ⟨globalFlags, [.config], 1, false⟩
  | .which => ⟨globalFlags ++ [.noCheck], [.config, .checkArg], 3, false⟩
  | .compiler => ⟨globalFlags, [.config], 1, false⟩

def flag? (l : Level) (name : Text) : Option Flag :=
  l.flags.find? (·.name = name)

def flagOfLetter? (l : Level) (c : Char) : Option Flag :=
  l.flags.find? (·.letter? = some c)

def setting? (l : Level) (name : Text) : Option Setting :=
  l.settings.find? (·.name = name)

end Level

end CommandLine

end DevSpecs
