import DevSpecs.Text.Basic

/-!
# Quoted strings

A string stands between quotes on one line, or between triple quotes on several.
Between double quotes a backslash starts an escape; between single quotes every
character stands for itself.  A break right after the opening of a string of
several lines is not part of it, and up to two quotes may stand before its end.
-/

namespace DevSpecs

namespace Toml

/-- Whether a character may stand in a string or a comment. -/
def isPlain (c : Char) : Bool :=
  c == '\t' || (0x20 ≤ c.toNat && c.toNat != 0x7F)

/-! ## Escapes -/

def escapeMeaning? : Char → Option Char
  | 'b' => some '\x08'
  | 't' => some '\t'
  | 'n' => some '\n'
  | 'f' => some '\x0C'
  | 'r' => some '\r'
  | 'e' => some '\x1B'
  | '"' => some '"'
  | '\\' => some '\\'
  | _ => none

/-- How many hexadecimal digits follow the letter of an escape. -/
def escapeDigits? : Char → Option Nat
  | 'x' => some 2
  | 'u' => some 4
  | 'U' => some 8
  | _ => none

/-- The character that hexadecimal digits stand for. -/
def charOfHex? (digits : Text) : Option Char := do
  let code := (← digits.mapM Text.hexDigit?).foldl (fun code digit => code * 16 + digit) 0
  if code.isValidChar then some (Char.ofNat code) else none

/-- Read an escape whose backslash has been passed. -/
def escape? : Text → Option (Char × Text)
  | [] => none
  | letter :: t =>
    match escapeDigits? letter with
    | some count => do
      guard (count ≤ t.length)
      return (← charOfHex? (t.take count), t.drop count)
    | none => do
      return (← escapeMeaning? letter, t)

/-! ## One line -/

/-- Read a string to its end on the same line.  Every step takes at least one
character. -/
def line? (quote : Char) : Nat → Text → Option (Text × Text)
  | 0, _ => none
  | _, [] => none
  | steps + 1, c :: t =>
    if c == quote then some ([], t)
    else if c == '\\' && quote == '"' then do
      let (meaning, t) ← escape? t
      let (rest, t) ← line? quote steps t
      return (meaning :: rest, t)
    else if isPlain c then do
      let (rest, t) ← line? quote steps t
      return (c :: rest, t)
    else none

/-! ## Several lines -/

def dropBreaks : Text → Text
  | ' ' :: t => dropBreaks t
  | '\t' :: t => dropBreaks t
  | '\n' :: t => dropBreaks t
  | '\r' :: '\n' :: t => dropBreaks t
  | t => t

def dropBreak : Text → Text
  | '\n' :: t => t
  | '\r' :: '\n' :: t => t
  | t => t

def startsBreak : Text → Bool
  | '\n' :: _ => true
  | '\r' :: '\n' :: _ => true
  | _ => false

/-- What follows a break that an escape joins to the line before, with the blanks
around it. -/
def afterJoin? (t : Text) : Option Text :=
  if startsBreak (t.dropWhile fun c => c == ' ' || c == '\t') then some (dropBreaks t) else none

/-- Read a string to its end on any line.  Every step takes at least one
character. -/
def lines? (quote : Char) : Nat → Text → Option (Text × Text)
  | 0, _ => none
  | _, [] => none
  | steps + 1, c :: t => do
    let keep (c : Char) (t : Text) : Option (Text × Text) := do
      let (rest, t) ← lines? quote steps t
      return (c :: rest, t)
    if c == quote then
      let quotes := ((c :: t).takeWhile (· == quote)).length
      if quotes < 3 then keep c t
      else
        let kept := min (quotes - 3) 2
        return (List.replicate kept quote, (c :: t).drop (kept + 3))
    else if c == '\\' && quote == '"' then
      match afterJoin? t with
      | some t => lines? quote steps t
      | none => do
        let (meaning, t) ← escape? t
        keep meaning t
    else if isPlain c || startsBreak (c :: t) then keep c t
    else none

def string? : Text → Option (Text × Text)
  | '"' :: '"' :: '"' :: t => lines? '"' (t.length + 1) (dropBreak t)
  | '\'' :: '\'' :: '\'' :: t => lines? '\'' (t.length + 1) (dropBreak t)
  | '"' :: t => line? '"' (t.length + 1) t
  | '\'' :: t => line? '\'' (t.length + 1) t
  | _ => none

/-- Whether a triple quote is at the start of a text. -/
def startsLines : Text → Bool
  | '"' :: '"' :: '"' :: _ => true
  | '\'' :: '\'' :: '\'' :: _ => true
  | _ => false

end Toml

end DevSpecs
