import DevSpecs.CommandLine.Reader

/-!
# The command line

A command line asks for one command.  Options before the command and after it are
taken together; where both give a configuration, the one after it counts.  Whether
the program runs under continuous integration is asked of the environment variable
`CI` when it is not said.
-/

namespace DevSpecs

/-- A command with its options. -/
inductive Request where
  | resolve (json : Bool) (mode : Option Mode) (unresolve : List Text)
  | generate (name : Text) (mode : Option Mode) (unresolve : List Text) (install : Bool)
  | install (name : Text)
  | which (name program spec checkArg : Text) (noCheck : Bool)
  | compiler (name : Text)
  deriving DecidableEq, Repr

/-- A command line. -/
structure CommandLine where
  config : Option Path
  verbose : Bool
  quiet : Bool
  /-- Whether the program runs under continuous integration. -/
  integration : Bool
  request : Request
  deriving DecidableEq, Repr

namespace CommandLine

/-! ## Commands -/

def modeOf (flags : List Flag) : Option Mode :=
  flags.findSome? Flag.mode?

/-- Whether flags or settings exclude each other. -/
def excludes (w : Words) : Bool :=
  1 < (w.flags.filterMap Flag.mode?).length || (w.flags.contains .noCheck && w.has .checkArg)

/-- The argument that a program is checked with unless another one is given. -/
def defaultCheckArg : Text := "--version"

def requestOf (verb : Verb) (w : Words) : Except Stop Request :=
  let mode := modeOf w.flags
  let unresolve := w.valuesOf .unresolve
  if excludes w then .error .conflict
  else
    match verb, w.operands with
    | .resolve, _ => .ok (.resolve (w.flags.contains .json) mode unresolve)
    | .generate, [name] => .ok (.generate name mode unresolve (w.flags.contains .install))
    | .install, [name] => .ok (.install name)
    | .which, [name, program, spec] =>
      let checkArg := (w.valuesOf .checkArg).head?.getD defaultCheckArg
      .ok (.which name program spec checkArg (w.flags.contains .noCheck))
    | .compiler, [name] => .ok (.compiler name)
    | _, _ => .error .missingOperand

/-! ## The help -/

/-- What the words after the command `help` ask for: at most one command. -/
def helpStop : List Text → Stop
  | [] => .help
  | [command] => if Level.isCommand command then .help else .unknownCommand
  | _ => .unknownCommand

/-! ## Continuous integration -/

/-- The values of the variable that deny. -/
def denials : List Text :=
  ["", "n", "no", "f", "false", "off", "0"]

/-- Whether the value of the variable says that the program runs under continuous
integration. -/
def affirms (value : Text) : Bool :=
  !denials.contains (value.map Char.toLower)

/-! ## Command lines -/

/-- Why a command line without a command is not carried out. -/
def withoutCommand (w : Words) (ciVariable : Option Text) : Stop :=
  if w.hasOption || ciVariable.isSome then .missingCommand else .nothing

/-- Read the words of a command line, given the value of the variable `CI`. -/
def parse (words : List Text) (ciVariable : Option Text) : Except Stop CommandLine := do
  match ← Level.start.read {} words with
  | (before, none) => do
    let before ← before.settle
    throw (withoutCommand before ciVariable)
  | (before, some (command, rest)) =>
    match Verb.ofName? command with
    | none => throw (helpStop rest)
    | some verb => do
      let (after, _) ← (Level.after verb).read {} rest
      let after ← after.settle
      let request ← requestOf verb after
      let before ← before.settle
      let has (f : Flag) : Bool := before.flags.contains f || after.flags.contains f
      return {
        config := (after.valuesOf .config).head? <|> (before.valuesOf .config).head?
        verbose := has .verbose
        quiet := has .quiet
        integration := has .integration || ciVariable.any affirms
        request }

end CommandLine

end DevSpecs
