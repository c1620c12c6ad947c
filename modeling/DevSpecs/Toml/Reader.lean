import DevSpecs.Toml.Draft
import DevSpecs.Toml.Quoted
import DevSpecs.Toml.Scalar

/-!
# Reading TOML

A document is a list of lines: headers, keys with their values, and blank ones.
Arrays and inline tables may extend over several lines, with comments in between
and a comma after the last item; they may be nested to a depth of 80.
-/

namespace DevSpecs

namespace Toml

/-! ## Blanks and comments -/

def isBlank (c : Char) : Bool :=
  c == ' ' || c == '\t'

def skipBlanks (t : Text) : Text :=
  t.dropWhile isBlank

def skipComment (t : Text) : Text :=
  match t with
  | '#' :: t => t.dropWhile isPlain
  | t => t

def lineEnd? (t : Text) : Option Text :=
  let t := skipComment (skipBlanks t)
  if t.isEmpty then some []
  else if startsBreak t then some (dropBreak t)
  else none

/-- What follows blanks, breaks and comments.  Every step passes a line. -/
def skipLines : Nat → Text → Text
  | 0, t => t
  | steps + 1, t =>
    let rest := skipComment (skipBlanks t)
    if startsBreak rest then skipLines steps (dropBreak rest) else rest

/-- What follows everything without meaning between the items of a collection. -/
def skipSpace (t : Text) : Text :=
  skipLines (t.length + 1) t

/-! ## Keys -/

/-- The characters of keys without quotes. -/
def isKeyChar (c : Char) : Bool :=
  Text.isAlphanumeric c || c == '_' || c == '-'

def keyPart? (t : Text) : Option (Text × Text) :=
  if startsLines t then none
  else
    match t.takeWhile isKeyChar with
    | [] => string? t
    | key => some (key, t.dropWhile isKeyChar)

/-- Read a dotted key.  Every step takes a part. -/
def key? : Nat → Text → Option (List Text × Text)
  | 0, _ => none
  | steps + 1, t => do
    let (part, t) ← keyPart? (skipBlanks t)
    match skipBlanks t with
    | '.' :: t => do
      let (parts, t) ← key? steps t
      return (part :: parts, t)
    | t => return ([part], t)

/-- Read a dotted key with the blanks around it. -/
def path? (t : Text) : Option (List Text × Text) :=
  key? (t.length + 1) t

/-! ## Values -/

abbrev ValueReader := Text → Option (Toml × Text)

def assignment? (read : ValueReader) (t : Text) : Option ((List Text × Toml) × Text) := do
  match ← path? t with
  | (path, '=' :: t) => do
    let (value, t) ← read (skipBlanks t)
    return ((path, value), t)
  | _ => none

/-- Read the items of an array to its end.  Every step takes an item. -/
def items? (read : ValueReader) : Nat → Text → Option (List Toml × Text)
  | 0, _ => none
  | steps + 1, t =>
    match skipSpace t with
    | ']' :: t => some ([], t)
    | t => do
      let (item, t) ← read t
      match skipSpace t with
      | ',' :: t => do
        let (items, t) ← items? read steps t
        return (item :: items, t)
      | ']' :: t => return ([item], t)
      | _ => none

/-- Read the entries of an inline table to its end.  Every step takes an entry. -/
def inlineEntries? (read : ValueReader) :
    Nat → Draft.Drafts → Text → Option (Draft.Drafts × Text)
  | 0, _, _ => none
  | steps + 1, drafts, t =>
    match skipSpace t with
    | '\x7d' :: t => some (drafts, t)
    | t => do
      let ((path, value), t) ← assignment? read t
      let drafts ← Draft.put value path drafts
      match skipSpace t with
      | ',' :: t => inlineEntries? read steps drafts t
      | '\x7d' :: t => return (drafts, t)
      | _ => none

/-- Read a value whose collections are nested no deeper than `depth`. -/
def value? (depth : Nat) (t : Text) : Option (Toml × Text) :=
  match t, depth with
  | '"' :: t, _ => (string? ('"' :: t)).map fun (s, t) => (.str s, t)
  | '\'' :: t, _ => (string? ('\'' :: t)).map fun (s, t) => (.str s, t)
  | '[' :: t, depth + 1 =>
    (items? (value? depth) (t.length + 1) t).map fun (items, t) => (.arr items, t)
  | '\x7b' :: t, depth + 1 =>
    (inlineEntries? (value? depth) (t.length + 1) [] t).map fun (drafts, t) =>
      (.table (Draft.toEntries drafts), t)
  | t, _ => scalar? t

/-! ## Documents -/

def maxDepth : Nat := 80

/-- What a line says. -/
inductive Statement where
  | blank
  | assign (path : List Text) (value : Toml)
  | startTable (path : List Text)
  | startRow (path : List Text)

/-- Read what a line says, without its end. -/
def content? (t : Text) : Option (Statement × Text) :=
  match t with
  | '[' :: '[' :: t => do
    match ← path? t with
    | (path, ']' :: ']' :: t) => return (.startRow path, t)
    | _ => none
  | '[' :: t => do
    match ← path? t with
    | (path, ']' :: t) => return (.startTable path, t)
    | _ => none
  | t =>
    if (lineEnd? t).isSome then some (.blank, t)
    else (assignment? (value? maxDepth) t).map fun ((path, value), t) => (.assign path value, t)

/-- Read a line to its end. -/
def statement? (t : Text) : Option (Statement × Text) := do
  let (statement, t) ← content? (skipBlanks t)
  return (statement, ← lineEnd? t)

/-- A document that has been read in part. -/
structure Reading where
  drafts : Draft.Drafts := []
  /-- The header of the lines to come. -/
  here : List Text := []

def Reading.add? (p : Reading) : Statement → Option Reading
  | .blank => some p
  | .assign path value => do
    return { p with drafts := ← Draft.within (Draft.put value path) p.here p.drafts }
  | .startTable path => do
    return ⟨← Draft.startTable path p.drafts, path⟩
  | .startRow path => do
    return ⟨← Draft.startRow path p.drafts, path⟩

/-- Read the lines of a document; the error is what follows the lines that could be
read.  Every step takes a line. -/
def Reading.read (p : Reading) : Nat → Text → Except Text Reading
  | _, [] => .ok p
  | 0, t => .error t
  | steps + 1, t =>
    match statement? t with
    | none => .error t
    | some (statement, rest) =>
      match p.add? statement with
      | none => .error t
      | some p => p.read steps rest

/-- A text that is no document. -/
structure ReadError where
  /-- The number of the line that cannot be read or does not fit. -/
  line : Nat
  deriving DecidableEq, Repr

def ReadError.message (e : ReadError) : Text :=
  "line " ++ Text.ofNat e.line ++ " cannot be read"

/-- The text without a mark of its byte order. -/
def withoutMark : Text → Text
  | '\uFEFF' :: t => t
  | t => t

def parse (t : Text) : Except ReadError Entries :=
  match Reading.read {} (t.length + 1) (withoutMark t) with
  | .ok p => .ok (Draft.toEntries p.drafts)
  | .error rest => .error ⟨t.count '\n' - rest.count '\n' + 1⟩

end Toml

end DevSpecs
