import DevSpecs.CommandLine.Grammar

/-!
# Reading the words of a level

Words are read from left to right.  A value is checked when the next option or
operand is read, or at the end; so a faulty value is passed over in favour of a
word after it that cannot be understood at all.  After a pair of dashes every word
is an operand.
-/

namespace DevSpecs

namespace CommandLine

/-- Why a command line is not carried out. -/
inductive Stop where
  /-- An option is given twice, or together with one that excludes it. -/
  | conflict
  /-- A flag is given a value. -/
  | tooManyValues
  | unknownArgument
  /-- A value is missing, or empty where it must not be. -/
  | invalidValue
  /-- An operand is refused. -/
  | refusedValue
  | unknownCommand
  | missingCommand
  | missingOperand
  /-- The help is asked for. -/
  | help
  /-- The version is asked for. -/
  | version
  /-- Nothing is asked for. -/
  | nothing
  deriving DecidableEq, Repr

/-- A value that has not been checked yet. -/
inductive Pending where
  | setting (s : Setting) (value : Option Text)
  | operand (value : Text)
  deriving DecidableEq, Repr

/-- What has been read of a level. -/
structure Words where
  flags : List Flag := []
  values : List (Setting × Text) := []
  operands : List Text := []
  pending : Option Pending := none
  deriving Repr

namespace Words

def has (w : Words) (s : Setting) : Bool :=
  w.values.any (·.1 = s)

def valuesOf (w : Words) (s : Setting) : List Text :=
  (w.values.filter (·.1 = s)).map Prod.snd

def hasOption (w : Words) : Bool :=
  !w.flags.isEmpty || !w.values.isEmpty

def addValue (w : Words) (s : Setting) (value : Text) : Except Stop Words :=
  if w.has s && !s.repeats then .error .conflict
  else if s = .config && value.isEmpty then .error .invalidValue
  else .ok { w with values := w.values ++ [(s, value)] }

/-- Take in an operand; the first one has to be the name of an environment. -/
def addOperand (w : Words) (value : Text) : Except Stop Words :=
  if w.operands.isEmpty && (Environment.checkName value).toOption.isNone then
    .error .refusedValue
  else .ok { w with operands := w.operands ++ [value] }

/-- Check the value that has not been checked. -/
def settle (w : Words) : Except Stop Words :=
  let rest := { w with pending := none }
  match w.pending with
  | none => .ok rest
  | some (.setting _ none) => .error .invalidValue
  | some (.setting s (some value)) => rest.addValue s value
  | some (.operand value) => rest.addOperand value

def addFlag (w : Words) (f : Flag) : Except Stop Words := do
  let w ← w.settle
  match f with
  | .help => throw .help
  | .version => throw .version
  | f => if w.flags.contains f then throw .conflict else return { w with flags := w.flags ++ [f] }

/-- The setting that waits for its value. -/
def waiting? (w : Words) : Option Setting :=
  match w.pending with
  | some (.setting s none) => some s
  | _ => none

/-- How many operands there are, those to be checked included. -/
def operandCount (w : Words) : Nat :=
  w.operands.length +
    match w.pending with
    | some (.operand _) => 1
    | _ => 0

end Words

namespace Level

/-- Read the letters after one dash. -/
def readLetters (l : Level) : Words → List Char → Except Stop Words
  | w, [] => .ok w
  | w, c :: cs =>
    match l.flagOfLetter? c with
    | some f => do
      let w ← w.addFlag f
      l.readLetters w cs
    | none => .error .unknownArgument

/-- Read what follows two dashes. -/
def readLong (l : Level) (w : Words) (word : Text) : Except Stop Words :=
  let (name, value) :=
    match Text.cutAt '=' word with
    | some (name, value) => (name, some value)
    | none => (word, none)
  match l.flag? name, l.setting? name with
  | some f, _ => if value.isSome then .error .tooManyValues else w.addFlag f
  | none, some s => do
    let w ← w.settle
    match value with
    | some value => w.addValue s value
    | none => return { w with pending := some (.setting s none) }
  | none, none => .error .unknownArgument

/-- Read a word that is no option. -/
def readOperand (l : Level) (w : Words) (word : Text) : Except Stop Words :=
  if w.operandCount < l.operands then do
    let w ← w.settle
    return { w with pending := some (.operand word) }
  else if l.hasCommand then .error .unknownCommand
  else .error .unknownArgument

/-- Read a word before a pair of dashes. -/
def readWord (l : Level) (w : Words) (word : Text) : Except Stop Words :=
  let value (s : Setting) : Except Stop Words :=
    .ok { w with pending := some (.setting s (some word)) }
  let plain : Except Stop Words :=
    match w.waiting? with
    | some s => value s
    | none => l.readOperand w word
  match w.waiting?.filter Setting.takesAnyWord with
  | some s => value s
  | none =>
    match word with
    | '-' :: '-' :: name => l.readLong w name
    | '-' :: c :: letters => l.readLetters w (c :: letters)
    | _ => plain

/-- Whether a word is the name of a command, that of the help included. -/
def isCommand (word : Text) : Bool :=
  word == "help".toList || (Verb.ofName? word).isSome

/-- Read the words after a pair of dashes. -/
def readTrailing (l : Level) : Words → List Text → Except Stop Words
  | w, [] => .ok w
  | w, word :: rest =>
    if l.hasCommand && isCommand word then .error .unknownArgument
    else do
      let w ← l.readOperand w word
      l.readTrailing w rest

/-- Read the words of a level up to a command.  The command is given with the words
after it. -/
def read (l : Level) : Words → List Text → Except Stop (Words × Option (Text × List Text))
  | w, [] => .ok (w, none)
  | w, word :: rest =>
    if l.hasCommand && w.waiting?.isNone && isCommand word then .ok (w, some (word, rest))
    else if word == "--".toList && (w.waiting?.filter Setting.takesAnyWord).isNone then do
      return (← l.readTrailing w rest, none)
    else do
      let w ← l.readWord w word
      l.read w rest

end Level

end CommandLine

end DevSpecs
