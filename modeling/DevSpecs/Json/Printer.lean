import DevSpecs.Json.Value

/-!
# Printing JSON

Values are printed over several lines with an indentation of two columns, empty
collections as `[]` and `{}`.  Only quotes, backslashes and control characters are
escaped.
-/

namespace DevSpecs

namespace Json

def hexDigits (n : Nat) : Text :=
  let digits := Nat.toDigits 16 n
  List.replicate (4 - digits.length) '0' ++ digits

/-- A character inside a string. -/
def escape (c : Char) : Text :=
  match c with
  | '"' => "\\\""
  | '\\' => "\\\\"
  | '\x08' => "\\b"
  | '\x0C' => "\\f"
  | '\n' => "\\n"
  | '\r' => "\\r"
  | '\t' => "\\t"
  | c => if c.toNat < 0x20 then "\\u" ++ hexDigits c.toNat else [c]

def quote (t : Text) : Text :=
  '"' :: t.flatMap escape ++ ['"']

/-- Lines between brackets. -/
def enclose (indent : Nat) (start stop : Char) : List Text → Text
  | [] => [start, stop]
  | lines =>
    let inner := '\n' :: List.replicate (2 * (indent + 1)) ' '
    start :: inner ++ (',' :: inner).intercalate lines ++
      '\n' :: List.replicate (2 * indent) ' ' ++ [stop]

mutual

/-- The text of a value that stands at so many levels of indentation. -/
def print (indent : Nat) : Json → Text
  | null => "null"
  | bool b => if b then "true" else "false"
  | num written => written
  | str t => quote (t.getD [])
  | arr items => enclose indent '[' ']' (printItems (indent + 1) items)
  | obj members => enclose indent '{' '}' (printMembers (indent + 1) members)
termination_by structural v => v

def printItems (indent : Nat) : List Json → List Text
  | [] => []
  | item :: items => print indent item :: printItems indent items
termination_by structural vs => vs

def printMembers (indent : Nat) : List (Option Text × Json) → List Text
  | [] => []
  | member :: members => printMember indent member :: printMembers indent members
termination_by structural ms => ms

def printMember (indent : Nat) : Option Text × Json → Text
  | (name, value) => quote (name.getD []) ++ ':' :: ' ' :: print indent value
termination_by structural m => m

end

end Json

end DevSpecs
