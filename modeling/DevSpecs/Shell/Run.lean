import DevSpecs.Files.Tree
import DevSpecs.Shell.Command
import DevSpecs.Text.Utf8

/-!
# Running scripts

A script is run on arguments.  It can look at files, write bytes to its two output
streams, and end with a code or by a signal; it changes no files.
-/

namespace DevSpecs

inductive Ending where
  | code (n : Nat)
  | signal (n : Nat)
  deriving DecidableEq, Repr

structure Outcome where
  ending : Ending
  output : List UInt8 := []
  errors : List UInt8 := []
  deriving Repr

namespace Shell

/-- Where what is written to a stream goes. -/
inductive Sink where
  | output
  | errors
  | nowhere
  deriving DecidableEq, Repr

structure State where
  values : Values
  files : FileTree
  input : Text := []
  outputTo : Sink := .output
  errorsTo : Sink := .errors
  output : List UInt8 := []
  errors : List UInt8 := []
  ended : Option Ending := none

namespace State

def writeTo (s : State) (sink : Sink) (bytes : List UInt8) : State :=
  match sink with
  | .output => { s with output := s.output ++ bytes }
  | .errors => { s with errors := s.errors ++ bytes }
  | .nowhere => s

def withStatus (s : State) (n : Nat) : State :=
  { s with values := { s.values with status := n } }

def set (s : State) (name value : Text) : State :=
  let others := s.values.assigned.filter (·.1 != name)
  { s with values := { s.values with assigned := (name, value) :: others } }

/-- Write bytes to the output and succeed. -/
def print (s : State) (bytes : List UInt8) : State :=
  (s.writeTo s.outputTo bytes).withStatus 0

/-- Report a failure on a line of the script. -/
def complain (s : State) (line status : Nat) (message : Text) : State :=
  let report := s.values.script ++ ": " ++ Text.ofNat line ++ ": " ++ message ++ "\n"
  (s.writeTo s.errorsTo (Utf8.encode report)).withStatus status

def succeed (s : State) (b : Bool) : State :=
  s.withStatus (if b then 0 else 1)

end State

/-! ## Escapes -/

/-- The byte of a single letter behind a backslash. -/
def escapeByte? : Char → Option UInt8
  | '\\' => some 0x5C
  | 'a' => some 0x07
  | 'b' => some 0x08
  | 'f' => some 0x0C
  | 'n' => some 0x0A
  | 'r' => some 0x0D
  | 't' => some 0x09
  | 'v' => some 0x0B
  | _ => none

def isOctal (c : Char) : Bool :=
  '0' ≤ c && c ≤ '7'

/-- The byte of up to `width` octal digits, and what follows. -/
def octal (width : Nat) (t : Text) : UInt8 × Text :=
  let digits := (t.take width).takeWhile isOctal
  (UInt8.ofNat (Nat.ofDigitChars 8 digits 0), t.drop digits.length)

/-- The bytes of a text with escapes; nothing after `\c` counts, which the second
part tells.  An octal code may start with a zero beyond its three digits.  Every step
takes at least one character. -/
def unescape : Nat → Text → List UInt8 × Bool
  | 0, _ => ([], true)
  | _, [] => ([], true)
  | steps + 1, '\\' :: c :: t =>
    let onward (bytes : List UInt8) (t : Text) : List UInt8 × Bool :=
      let (rest, complete) := unescape steps t
      (bytes ++ rest, complete)
    match escapeByte? c with
    | some b => onward [b] t
    | none =>
      if c == 'c' then ([], false)
      else if isOctal c then
        let (b, t) := octal 3 (if c == '0' && t.head?.any isOctal then t else c :: t)
        onward [b] t
      else onward (Utf8.encode ['\\', c]) t
  | steps + 1, c :: t =>
    let (rest, complete) := unescape steps t
    (String.utf8EncodeChar c ++ rest, complete)

/-! ## Commands that print -/

def echo (arguments : List Text) : List UInt8 :=
  let (newline, words) :=
    match arguments with
    | ['-', 'n'] :: rest => (false, rest)
    | words => (true, words)
  let t := Text.unwords words
  let (bytes, complete) := unescape (t.length + 1) t
  if newline && complete then bytes ++ [0x0A] else bytes

/-- Print a format once, taking arguments for its fields.  The second part is what
remains of the arguments, and the third whether to go on. -/
def formatOnce : Nat → Text → List Text → List UInt8 × List Text × Bool
  | 0, _, arguments => ([], arguments, true)
  | _, [], arguments => ([], arguments, true)
  | steps + 1, '%' :: c :: t, arguments =>
    let argument := arguments.headD []
    let onward (bytes : List UInt8) (arguments : List Text) :=
      let (rest, arguments, complete) := formatOnce steps t arguments
      (bytes ++ rest, arguments, complete)
    match c with
    | '%' => onward [0x25] arguments
    | 's' => onward (Utf8.encode argument) arguments.tail
    | 'd' | 'i' | 'u' =>
      onward (Utf8.encode (if argument.isEmpty then ['0'] else argument)) arguments.tail
    | 'c' => onward [(Utf8.encode argument).headD 0] arguments.tail
    | 'b' =>
      let (bytes, complete) := unescape (argument.length + 1) argument
      if complete then onward bytes arguments.tail else (bytes, arguments.tail, false)
    | c => onward (Utf8.encode ['%', c]) arguments
  | steps + 1, '\\' :: c :: t, arguments =>
    let (bytes, t) :=
      match escapeByte? c with
      | some b => ([b], t)
      | none =>
        if isOctal c then
          let (b, t) := octal 3 (c :: t)
          ([b], t)
        else (Utf8.encode ['\\', c], t)
    let (rest, arguments, complete) := formatOnce steps t arguments
    (bytes ++ rest, arguments, complete)
  | steps + 1, c :: t, arguments =>
    let (rest, arguments, complete) := formatOnce steps t arguments
    (String.utf8EncodeChar c ++ rest, arguments, complete)

/-- Print a format until all arguments have been taken. -/
def format (fmt : Text) : Nat → List Text → List UInt8
  | 0, _ => []
  | rounds + 1, arguments =>
    let (bytes, rest, complete) := formatOnce (fmt.length + 1) fmt arguments
    if complete && !rest.isEmpty && rest.length < arguments.length then
      bytes ++ format fmt rounds rest
    else bytes

/-! ## Conditions -/

def integer? (t : Text) : Option Int :=
  match t with
  | '-' :: digits =>
    if digits.isEmpty || !digits.all Char.isDigit then none
    else some (-(Nat.ofDigitChars 10 digits 0 : Int))
  | digits =>
    if digits.isEmpty || !digits.all Char.isDigit then none
    else some (Nat.ofDigitChars 10 digits 0)

/-- A condition on one operand. -/
def unary? (files : FileTree) (operator operand : Text) : Option Bool :=
  match operator with
  | ['-', 'n'] => some !operand.isEmpty
  | ['-', 'z'] => some operand.isEmpty
  | ['-', 'e'] => some (files.hasEntry operand)
  | ['-', 'f'] => some (files.isFile operand)
  | ['-', 'd'] => some (files.isDirectory operand)
  | ['-', 'r'] => some (files.hasEntry operand)
  | ['-', 'w'] => some (files.hasEntry operand)
  | ['-', 'x'] => some (files.isDirectory operand || files.isExecutable operand)
  | ['-', 's'] =>
    some (match files.lookup operand with
      | .ok (.file (some []) _) => false
      | .ok _ => true
      | .error _ => false)
  | _ => none

/-- A condition on two operands. -/
def binary? (left operator right : Text) : Option Bool :=
  if operator == ['='] then some (left == right)
  else if operator == ['!', '='] then some (left != right)
  else do
    let a ← integer? left
    let b ← integer? right
    match String.ofList operator with
    | "-eq" => some (a == b)
    | "-ne" => some (a != b)
    | "-lt" => some (a < b)
    | "-le" => some (a ≤ b)
    | "-gt" => some (a > b)
    | "-ge" => some (a ≥ b)
    | _ => none

/-- Whether a condition holds, if it is one. -/
def condition? (files : FileTree) : List Text → Option Bool
  | [] => some false
  | [t] => some !t.isEmpty
  | ['!'] :: rest => (condition? files rest).map (!·)
  | [operator, operand] => unary? files operator operand
  | [left, operator, right] => binary? left operator right
  | _ => none

/-! ## Other commands -/

/-- The names of the signals from number one on. -/
def signalNames : List String :=
  ["HUP", "INT", "QUIT", "ILL", "TRAP", "ABRT", "BUS", "FPE", "KILL", "USR1", "SEGV", "USR2",
    "PIPE", "ALRM", "TERM", "STKFLT", "CHLD", "CONT", "STOP", "TSTP", "TTIN", "TTOU", "URG",
    "XCPU", "XFSZ", "VTALRM", "PROF", "WINCH", "IO", "PWR", "SYS"]

/-- The number of a signal, given as a number or by its name. -/
def signalNumber? (t : Text) : Option Nat :=
  if !t.isEmpty && t.all Char.isDigit then some (Nat.ofDigitChars 10 t 0)
  else
    let name := String.ofList (((Text.dropStart? "SIG" t).getD t).map Char.toUpper)
    (signalNames.findIdx? (· == name)).map (· + 1)

/-- The signals that do not end a program. -/
def harmlessSignals : List Nat :=
  [0, 17, 18, 23, 28]

/-- Send a signal to the script itself. -/
def signalSelf (s : State) (n : Nat) : State :=
  if harmlessSignals.contains n then s.withStatus 0 else { s with ended := some (.signal n) }

/-- The text of the files named, or of the input when none is. -/
def cat (s : State) : List Text → Except Text Text
  | [] => .ok s.input
  | names => do
    let texts ← names.mapM fun name =>
      if name == ['-'] then .ok s.input
      else (s.files.read name).mapError fun cause =>
        "cat: " ++ name ++ ": " ++ cause.message.takeWhile (· != '(')
    return texts.flatten

/-- Run a command that the shell knows by name. -/
def runNamed (s : State) (line : Nat) (name : Text) (arguments : List Text) : State :=
  match String.ofList name with
  | ":" | "true" | "set" | "export" | "umask" | "unset" => s.withStatus 0
  | "false" => s.withStatus 1
  | "echo" => s.print (echo arguments)
  | "printf" =>
    match arguments with
    | [] => s.complain line 2 "printf: usage: printf format [arg ...]"
    | ['-', '-'] :: fmt :: rest => s.print (format fmt (rest.length + 1) rest)
    | fmt :: rest => s.print (format fmt (rest.length + 1) rest)
  | "exit" =>
    match arguments with
    | [] => { s with ended := some (.code s.values.status) }
    | code :: _ =>
      match integer? code with
      | some (.ofNat n) => { s with ended := some (.code (n % 256)) }
      | _ =>
        { s.complain line 2 ("exit: Illegal number: " ++ code) with ended := some (.code 2) }
  | "test" =>
    match condition? s.files arguments with
    | some b => s.succeed b
    | none => s.complain line 2 "test: unexpected operator"
  | "[" =>
    match arguments.getLast?, condition? s.files arguments.dropLast with
    | some [']'], some b => s.succeed b
    | _, _ => s.complain line 2 "[: unexpected operator"
  | "kill" =>
    match arguments with
    | [target] =>
      if target == selfNumber then signalSelf s 15 else s.complain line 1 "kill: No such process"
    | [['-', 's'], signal, target] =>
      match signalNumber? signal with
      | some n =>
        if target == selfNumber then signalSelf s n
        else s.complain line 1 "kill: No such process"
      | none => s.complain line 2 "kill: invalid signal"
    | [signal, target] =>
      match signalNumber? (signal.drop 1) with
      | some n =>
        if target == selfNumber then signalSelf s n
        else s.complain line 1 "kill: No such process"
      | none => s.complain line 2 "kill: invalid signal"
    | _ => s.complain line 2 "kill: usage: kill [-s sigspec] pid"
  | "shift" =>
    { s with values := { s.values with arguments := s.values.arguments.drop 1 } }.withStatus 0
  | "cat" =>
    match cat s arguments with
    | .ok t => s.print (Utf8.encode t)
    | .error message => (s.writeTo s.errorsTo (Utf8.encode (message ++ "\n"))).withStatus 1
  | _ => s.complain line 127 (name ++ ": not found")

/-! ## Redirections -/

def nullFile : Text := "/dev/null"

def redirect (s : State) : Redirect → State
  | .duplicate 1 2 => { s with outputTo := s.errorsTo }
  | .duplicate 2 1 => { s with errorsTo := s.outputTo }
  | .duplicate .. => s
  | .toFile 2 _ => { s with errorsTo := .nowhere }
  | .toFile .. => { s with outputTo := .nowhere }
  | .fromFile path =>
    { s with input := ((s.files.read (s.values.joined path).text).toOption).getD [] }
  | .here t => { s with input := (s.values.joined t).text }

/-- Give the streams back where they went before. -/
def restore (before after : State) : State :=
  { after with
    input := before.input
    outputTo := before.outputTo
    errorsTo := before.errorsTo }

/-! ## Running -/

/-- Run a simple command: set its variables, and then run what it names. -/
def runSimple (s : State) (line : Nat) (assignments : List (Text × Word)) (words : List Word) :
    State :=
  let s := assignments.foldl (fun s a => s.set a.1 (s.values.joined a.2).text) s
  match (words.flatMap s.values.fields).map Marked.text with
  | [] => s.withStatus 0
  | name :: arguments => runNamed s line name arguments

mutual

/-- Run a command unless the script has ended. -/
def run : Command → State → State
  | .nothing, s => s
  | .simple line assignments words, s =>
    if s.ended.isSome then s else runSimple s line assignments words
  | .redirected body redirects, s => restore s (run body (redirects.foldl redirect s))
  | .sequence first second, s => run second (run first s)
  | .both first second, s =>
    let s := run first s
    if s.values.status = 0 then run second s else s
  | .either first second, s =>
    let s := run first s
    if s.values.status = 0 then s else run second s
  | .negated body, s =>
    let s := run body s
    s.succeed (s.values.status != 0)
  | .choice condition yes .nothing, s =>
    let s := run condition s
    if s.values.status = 0 then run yes s else s.withStatus 0
  | .choice condition yes no, s =>
    let s := run condition s
    if s.values.status = 0 then run yes s else run no s
  | .select subject arms, s => runArms arms (s.values.joined subject).text s
  | .each name items body, s =>
    let items :=
      match items with
      | some words => (words.flatMap s.values.fields).map Marked.text
      | none => s.values.arguments
    if items.isEmpty then s.withStatus 0
    else items.foldl (fun s item => run body (s.set name item)) s
termination_by structural c => c

/-- Run the first arm of which a pattern matches. -/
def runArms : List (List Word × Command) → Text → State → State
  | [], _, s => s.withStatus 0
  | arm :: arms, t, s =>
    if arm.1.any fun pattern => matchesPattern (s.values.joined pattern) t then runArm arm s
    else runArms arms t s
termination_by structural arms => arms

def runArm : List Word × Command → State → State
  | (_, .nothing), s => s.withStatus 0
  | (_, body), s => run body s
termination_by structural arm => arm

end

/-- Run a script of a name on arguments. -/
def execute (files : FileTree) (name script : Text) (arguments : List Text) : Outcome :=
  let s : State := { values := { script := name, arguments := arguments }, files := files }
  let s :=
    match parse? script with
    | some command => run command s
    | none => s.complain 1 2 "Syntax error"
  ⟨s.ended.getD (.code s.values.status), s.output, s.errors⟩

end Shell

end DevSpecs
