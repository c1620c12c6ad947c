import DevSpecs.Json.Value

/-!
# Reading JSON

A text is a JSON value with blanks around it and between its parts.
-/

namespace DevSpecs

namespace Json

/-! ## Strings -/

def isBlank (c : Char) : Bool :=
  c == ' ' || c == '\n' || c == '\t' || c == '\r'

def skipBlanks (t : Text) : Text :=
  t.dropWhile isBlank

/-- The code of four hexadecimal digits, and what follows. -/
def hexCode? : Text → Option (Nat × Text)
  | a :: b :: c :: d :: t => do
    let digits ← [a, b, c, d].mapM Text.hexDigit?
    return (digits.foldl (fun code digit => code * 16 + digit) 0, t)
  | _ => none

def escapeMeaning? : Char → Option Char
  | '"' => some '"'
  | '\\' => some '\\'
  | '/' => some '/'
  | 'b' => some '\x08'
  | 'f' => some '\x0C'
  | 'n' => some '\n'
  | 'r' => some '\r'
  | 't' => some '\t'
  | _ => none

/-- A unit of a string: a character, or half of a surrogate pair. -/
inductive StringUnit where
  | char (c : Char)
  | high (code : Nat)
  | low (code : Nat)

def unitOf (code : Nat) : StringUnit :=
  if 0xD800 ≤ code && code ≤ 0xDBFF then .high code
  else if 0xDC00 ≤ code && code ≤ 0xDFFF then .low code
  else .char (Char.ofNat code)

/-- Read the units of a string up to its closing quote.  Every step takes at
least one character. -/
def units? : Nat → Text → Option (List StringUnit × Text)
  | 0, _ => none
  | _, [] => none
  | steps + 1, c :: t =>
    if c == '"' then some ([], t)
    else if c == '\\' then
      match t with
      | 'u' :: t => do
        let (code, t) ← hexCode? t
        let (rest, t) ← units? steps t
        return (unitOf code :: rest, t)
      | d :: t => do
        let meaning ← escapeMeaning? d
        let (rest, t) ← units? steps t
        return (.char meaning :: rest, t)
      | [] => none
    else if c.toNat < 0x20 then none
    else do
      let (rest, t) ← units? steps t
      return (.char c :: rest, t)

/-- The text of units, in which the halves of pairs stand together. -/
def textOfUnits? : List StringUnit → Option Text
  | [] => some []
  | .char c :: rest => (textOfUnits? rest).map (c :: ·)
  | .high high :: .low low :: rest =>
    let c := Char.ofNat (0x10000 + (high - 0xD800) * 0x400 + (low - 0xDC00))
    (textOfUnits? rest).map (c :: ·)
  | _ => none

/-- Read a string whose opening quote has been passed. -/
def string? (t : Text) : Option (Option Text × Text) := do
  let (units, t) ← units? (t.length + 1) t
  return (textOfUnits? units, t)

/-! ## Numbers -/

/-- The digits at the start of a text, of which there must be one. -/
def digits? (t : Text) : Option (Text × Text) :=
  match t.takeWhile Char.isDigit with
  | [] => none
  | digits => some (digits, t.dropWhile Char.isDigit)

/-- A part of a number that may be missing: digits behind a mark. -/
def optionalDigits? (t : Text) : Option (Text × Text) :=
  match t with
  | '.' :: rest => (digits? rest).map fun (digits, rest) => ('.' :: digits, rest)
  | t => some ([], t)

def optionalExponent? (t : Text) : Option (Text × Text) :=
  match t with
  | mark :: rest =>
    if mark == 'e' || mark == 'E' then
      match rest with
      | '+' :: rest => (digits? rest).map fun (digits, rest) => (mark :: '+' :: digits, rest)
      | '-' :: rest => (digits? rest).map fun (digits, rest) => (mark :: '-' :: digits, rest)
      | rest => (digits? rest).map fun (digits, rest) => (mark :: digits, rest)
    else some ([], t)
  | [] => some ([], [])

/-- Read a number; a zero at its start stands alone. -/
def number? (t : Text) : Option (Text × Text) := do
  let (sign, t) := match t with
    | '-' :: t => (['-'], t)
    | t => ([], t)
  let (whole, t) ← digits? t
  if whole.head? == some '0' && whole.length != 1 then none
  let (part, t) ← optionalDigits? t
  let (exponent, t) ← optionalExponent? t
  return (sign ++ whole ++ part ++ exponent, t)

/-! ## Values -/

mutual

/-- Read a value and give the rest of the text.  Every step takes at least one
character. -/
def value? (steps : Nat) (t : Text) : Option (Json × Text) :=
  match steps with
  | 0 => none
  | steps + 1 =>
    match skipBlanks t with
    | 'n' :: 'u' :: 'l' :: 'l' :: t => some (.null, t)
    | 't' :: 'r' :: 'u' :: 'e' :: t => some (.bool true, t)
    | 'f' :: 'a' :: 'l' :: 's' :: 'e' :: t => some (.bool false, t)
    | '"' :: t => (string? t).map fun (s, t) => (.str s, t)
    | '[' :: t =>
      match skipBlanks t with
      | ']' :: t => some (.arr [], t)
      | t => (items? steps t).map fun (items, t) => (.arr items, t)
    | '{' :: t =>
      match skipBlanks t with
      | '}' :: t => some (.obj [], t)
      | t => (members? steps t).map fun (members, t) => (.obj members, t)
    | t => (number? t).map fun (written, t) => (.num written, t)

/-- Read the items of an array that is not empty, to its end. -/
def items? (steps : Nat) (t : Text) : Option (List Json × Text) :=
  match steps with
  | 0 => none
  | steps + 1 => do
    let (item, t) ← value? steps t
    match skipBlanks t with
    | ',' :: t => do
      let (items, t) ← items? steps t
      return (item :: items, t)
    | ']' :: t => return ([item], t)
    | _ => none

/-- Read the members of an object that is not empty, to its end. -/
def members? (steps : Nat) (t : Text) : Option (List (Option Text × Json) × Text) :=
  match steps with
  | 0 => none
  | steps + 1 =>
    match skipBlanks t with
    | '"' :: t => do
      let (name, t) ← string? t
      match skipBlanks t with
      | ':' :: t => do
        let (value, t) ← value? steps t
        match skipBlanks t with
        | ',' :: t => do
          let (members, t) ← members? steps t
          return ((name, value) :: members, t)
        | '}' :: t => return ([(name, value)], t)
        | _ => none
      | _ => none
    | _ => none

end

def parse? (t : Text) : Option Json := do
  let (value, rest) ← value? (2 * t.length + 2) t
  guard (skipBlanks rest).isEmpty
  return value

end Json

end DevSpecs
