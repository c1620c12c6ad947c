import DevSpecs.CommandLine
import DevSpecs.Report

/-!
# The program

The program carries out a command line on the files at hand.  Its result says what
it writes, the code it exits with, and the files it leaves.
-/

namespace DevSpecs

namespace Program

def name : Text := "spackdev"

def version : Text := "0.4.0"

/-- What the program answers when it is asked for its version. -/
def versionText : Text :=
  name ++ ' ' :: version ++ ['\n']

def helpLines : List String :=
  [ "Version-constrained Spack development environments",
    "",
    "Usage: spackdev [OPTIONS] <COMMAND>",
    "",
    "Commands:",
    "  resolve   Print the resolved specs grouped by predicate",
    "  generate  Write the manifest of a development environment",
    "  install   Install a generated environment",
    "  which     Print the path of a command provided by an installed package",
    "  compiler  Print the compiler preferred by an installed environment",
    "  help      Print this message",
    "",
    "Options:",
    "      --config <FILE>  Configuration file (default: ./spackdev.toml)",
    "      --verbose        Enable verbose output",
    "  -q, --quiet          Enable minimal output",
    "      --ci             Running under continuous integration",
    "  -h, --help           Print help",
    "  -V, --version        Print version" ]

/-- What the program answers when it is asked for help. -/
def helpText : Text :=
  helpLines.flatMap fun line => line.toList ++ ['\n']

end Program

namespace CommandLine.Stop

/-- What is said about a command line that is not carried out. -/
def message : Stop → Text
  | .conflict => "an argument cannot be used with another one, or multiple times"
  | .tooManyValues => "unexpected value for a flag"
  | .unknownArgument => "unexpected argument"
  | .invalidValue => "a value is required for an option but none was supplied"
  | .refusedValue => "invalid environment name"
  | .unknownCommand => "unrecognized subcommand"
  | .missingCommand => "a subcommand is required"
  | .missingOperand => "required arguments were not provided"
  | .help => Program.helpText
  | .version => Program.versionText
  | .nothing => Program.helpText

end CommandLine.Stop

namespace Program

structure Result where
  code : Nat
  shown : Shown := {}
  files : FileTree

/-- Where the program runs. -/
structure Surroundings where
  files : FileTree
  /-- The directories where programs are found. -/
  searchList : Text := []
  /-- The value of the variable `CI`. -/
  ciVariable : Option Text := none
  /-- Whether the output may have styles. -/
  color : Bool := false

/-- A line that starts with a heading. -/
def headed (color : Bool) (style : Style) (heading message : Text) : Text :=
  lineOf ((if color then style.paint heading else heading) ++ ' ' :: message)

/-- The result of a command line that is not carried out. -/
def stopped (s : Surroundings) (stop : CommandLine.Stop) : Result :=
  match stop with
  | .help => ⟨0, { output := stop.message }, s.files⟩
  | .version => ⟨0, { output := stop.message }, s.files⟩
  | .nothing => ⟨2, { errors := stop.message }, s.files⟩
  | stop => ⟨2, { errors := headed s.color .boldRed "error:" stop.message }, s.files⟩

/-- What a request writes when it succeeds, and whether it has found what was asked
for. -/
structure Answer where
  shown : Shown
  found : Bool := true

def say (text : Text) : Answer :=
  { shown := { output := text } }

/-- What is said when an environment has no compiler. -/
def noCompiler (s : Surroundings) (line : CommandLine) (environment : Text) : Answer where
  shown :=
    if line.quiet then {}
    else
      { errors := headed s.color .boldYellow "Note:"
          ("no compiler recorded in environment '" ++ environment ++ "', install it first") }
  found := false

def answer (s : Surroundings) (p : Project) (line : CommandLine) : Project.Acting Answer := do
  let style (json : Bool) : ReportStyle :=
    { format := if json then .json else .text
      verbosity := Verbosity.ofFlags line.verbose line.quiet
      color := s.color }
  match line.request with
  | .resolve json mode unresolve => do
    return say ((style json).ofResolution (← p.resolve mode unresolve))
  | .generate environment mode unresolve install => do
    return say ((style false).ofGenerated (← p.generate environment mode unresolve install))
  | .install environment => do
    p.install environment
    return say []
  | .which environment program spec checkArg noCheck => do
    let argument := if noCheck then none else some checkArg
    return say ((← p.which environment program spec argument) ++ ['\n'])
  | .compiler environment => do
    match ← p.compiler environment with
    | some compiler => return say (compiler.text ++ ['\n'])
    | none => return noCompiler s line environment

def failureText (s : Surroundings) (line : CommandLine) (message : Text) : Text :=
  headed s.color .boldRed "Error:" (withHint message line.integration)

/-- What is said at the start if much is to be said. -/
def banner (path : Path) : Text :=
  name ++ " v" ++ version ++ "\nConfig: " ++ path ++ ['\n']

def carryOut (s : Surroundings) (line : CommandLine) : Result :=
  let path := line.config.getD Config.fileName
  match Config.load s.files path with
  | .error e => ⟨1, { errors := failureText s line e.message }, s.files⟩
  | .ok config =>
    let before : Shown := if line.verbose then { errors := banner path } else {}
    let project := Project.ofConfig config s.searchList
    let (outcome, after) := (answer s project line).run { files := s.files, shown := before }
    match outcome with
    | .ok a => ⟨if a.found then 0 else 1, after.shown.append a.shown, after.files⟩
    | .error e =>
      ⟨1, after.shown.append { errors := failureText s line e.message }, after.files⟩

/-- Run the program with the words of a command line. -/
def run (s : Surroundings) (words : List Text) : Result :=
  match CommandLine.parse words s.ciVariable with
  | .error stop => stopped s stop
  | .ok line => carryOut s line

end Program

end DevSpecs
