import DevSpecs.Text.Basic

/-!
# Shell words

A word is made of texts and parameters, each inside quotes or not.  Where a word is
expanded, every character remembers whether it was quoted: only an unquoted blank
separates fields, and only an unquoted star stands for other characters in a
pattern.
-/

namespace DevSpecs

namespace Shell

/-- What a dollar sign refers to. -/
inductive Parameter where
  /-- An argument of the script; the script itself is number zero. -/
  | position (n : Nat)
  /-- All arguments as one text. -/
  | all
  /-- All arguments, each on its own. -/
  | each
  | count
  /-- The status of the last command. -/
  | status
  /-- The process of the script. -/
  | self
  | variable (name : Text)
  deriving DecidableEq, Repr

inductive Part where
  | text (quoted : Bool) (t : Text)
  /-- A parameter and what stands for it when it has no value. -/
  | parameter (quoted : Bool) (p : Parameter) (otherwise : Option Text)
  deriving DecidableEq, Repr

abbrev Word := List Part

/-- A word without quotes and parameters. -/
def bare? : Word → Option Text
  | [.text false t] => some t
  | _ => none

/-- A character and whether it was quoted. -/
structure Mark where
  char : Char
  quoted : Bool
  deriving DecidableEq, Repr

/-- What characters stand for when they have been expanded. -/
abbrev Marked := List Mark

def marked (quoted : Bool) (t : Text) : Marked :=
  t.map (⟨·, quoted⟩)

def Marked.text (m : Marked) : Text :=
  m.map Mark.char

/-! ## Expansion -/

structure Values where
  script : Text
  arguments : List Text
  assigned : List (Text × Text) := []
  status : Nat := 0

/-- The number that stands for the process of a script. -/
def selfNumber : Text := "$$"

/-- The value of a parameter, if it is set. -/
def Values.get? (v : Values) : Parameter → Option Text
  | .position 0 => some v.script
  | .position (n + 1) => v.arguments[n]?
  | .all | .each => some (Text.unwords v.arguments)
  | .count => some (Text.ofNat v.arguments.length)
  | .status => some (Text.ofNat v.status)
  | .self => some selfNumber
  | .variable name => v.assigned.lookup name

/-- The text that stands for a parameter. -/
def Values.value (v : Values) (p : Parameter) (otherwise : Option Text) : Text :=
  match v.get? p, otherwise with
  | some t, some other => if t.isEmpty then other else t
  | some t, none => t
  | none, other => other.getD []

/-- A word as one text. -/
def Values.joined (v : Values) (word : Word) : Marked :=
  word.flatMap fun
    | .text quoted t => marked quoted t
    | .parameter quoted p otherwise => marked quoted (v.value p otherwise)

def isFieldBlank (c : Char) : Bool :=
  c == ' ' || c == '\t' || c == '\n'

/-- Fields that have been read, the latest first, and the one being read, if it
has started. -/
structure Fields where
  done : List Marked := []
  current : Option Marked := none

def Fields.close (f : Fields) : Fields :=
  match f.current with
  | none => f
  | some m => ⟨m :: f.done, none⟩

def Fields.add (f : Fields) (m : Marked) : Fields :=
  { f with current := some (f.current.getD [] ++ m) }

/-- Add the text of an unquoted parameter, in which blanks separate fields. -/
def Fields.addSplit (f : Fields) : Text → Fields
  | [] => f
  | c :: t =>
    if isFieldBlank c then Fields.addSplit f.close t
    else Fields.addSplit (f.add [⟨c, false⟩]) t

/-- Add texts of which each but the first starts a field. -/
def Fields.addEach (f : Fields) : List Text → Fields
  | [] => f
  | [t] => f.add (marked true t)
  | t :: ts => Fields.addEach (f.add (marked true t)).close ts

def Values.fields (v : Values) (word : Word) : List Marked :=
  let fields := word.foldl (fun (f : Fields) part =>
    match part with
    | .text quoted t => f.add (marked quoted t)
    | .parameter true .each _ => f.addEach v.arguments
    | .parameter true p otherwise => f.add (marked true (v.value p otherwise))
    | .parameter false p otherwise => f.addSplit (v.value p otherwise)) {}
  fields.close.done.reverse

/-! ## Patterns -/

def matchesPattern : Marked → Text → Bool
  | [], t => t.isEmpty
  | ⟨c, quoted⟩ :: pattern, t =>
    if !quoted && c == '*' then
      (List.range (t.length + 1)).any fun n => matchesPattern pattern (t.drop n)
    else
      match t with
      | [] => false
      | d :: t => ((!quoted && c == '?') || c == d) && matchesPattern pattern t

end Shell

end DevSpecs
