import DevSpecs.Shell.Word

/-!
# Shell commands

A script is a command: a list of simple commands, joined by separators and by the
words of choices, selections and repetitions over a list of words.  This file
reads a script into tokens and these into a command.
-/

namespace DevSpecs

namespace Shell

/-- Where a stream is redirected to, or read from. -/
inductive Redirect where
  /-- To where another stream goes. -/
  | duplicate (stream other : Nat)
  | toFile (stream : Nat) (path : Word)
  | fromFile (path : Word)
  /-- From a text in the script. -/
  | here (text : Word)
  deriving DecidableEq, Repr

inductive Command where
  | nothing
  /-- A simple command on a line, with the variables it sets. -/
  | simple (line : Nat) (assignments : List (Text × Word)) (words : List Word)
  | redirected (body : Command) (redirects : List Redirect)
  | sequence (first second : Command)
  | both (first second : Command)
  | either (first second : Command)
  | negated (body : Command)
  | choice (condition yes no : Command)
  | select (subject : Word) (arms : List (List Word × Command))
  /-- A repetition over words, or over the arguments. -/
  | each (name : Text) (items : Option (List Word)) (body : Command)
  deriving Repr

/-! ## Tokens -/

inductive Token where
  | word (line : Nat) (w : Word)
  | mark (t : Text)
  | redirect (r : Redirect)
  deriving DecidableEq, Repr

def isNameStart (c : Char) : Bool :=
  c.isAlpha || c == '_'

def isNameChar (c : Char) : Bool :=
  isNameStart c || c.isDigit

/-- The characters that end a word. -/
def endsWord (c : Char) : Bool :=
  isFieldBlank c || ";&|<>()".toList.contains c

/-- The parameter that a name in braces or behind a dollar sign means. -/
def parameterOf? (t : Text) : Option Parameter :=
  match t with
  | ['*'] => some .all
  | ['@'] => some .each
  | ['#'] => some .count
  | ['?'] => some .status
  | ['$'] => some .self
  | c :: rest =>
    if t.all Char.isDigit then some (.position (Nat.ofDigitChars 10 t 0))
    else if isNameStart c && rest.all isNameChar then some (.variable t)
    else none
  | [] => none

/-- Read what follows a dollar sign, if it is a parameter. -/
def dollar? (t : Text) : Option (Parameter × Option Text × Text) :=
  match t with
  | '{' :: t =>
    let inside := t.takeWhile (· != '}')
    match t.drop inside.length with
    | '}' :: rest =>
      let name := inside.takeWhile (· != ':')
      let other := Text.dropStart? [':', '-'] (inside.drop name.length)
      if other.isNone && name.length < inside.length then none
      else (parameterOf? name).map (·, other, rest)
    | _ => none
  | c :: rest =>
    if isNameStart c then
      let name := t.takeWhile isNameChar
      some (.variable name, none, t.drop name.length)
    else (parameterOf? [c]).map (·, none, rest)
  | [] => none

/-- Read a text in double quotes, or to the end of the text when it has none.
Every step takes at least one character. -/
def doubleQuoted? (closed : Bool) : Nat → Text → Option (Word × Text)
  | 0, _ => none
  | _, [] => if closed then none else some ([], [])
  | steps + 1, '\\' :: c :: t => do
    let (rest, t) ← doubleQuoted? closed steps t
    if c == '\n' then return (rest, t)
    let literal := if "$`\"\\".toList.contains c then [c] else ['\\', c]
    return (.text true literal :: rest, t)
  | steps + 1, c :: t =>
    if closed && c == '"' then some ([], t)
    else
      match (if c == '$' then dollar? t else none) with
      | some (p, other, t) => do
        let (rest, t) ← doubleQuoted? closed steps t
        return (.parameter true p other :: rest, t)
      | none => do
        let (rest, t) ← doubleQuoted? closed steps t
        return (.text true [c] :: rest, t)

/-- Put neighbouring texts of a word together. -/
def merged : Word → Word
  | [] => []
  | .text quoted t :: rest =>
    match merged rest with
    | .text quoted' t' :: rest =>
      if quoted = quoted' then .text quoted (t ++ t') :: rest
      else .text quoted t :: .text quoted' t' :: rest
    | rest => .text quoted t :: rest
  | part :: rest => part :: merged rest

/-- Read the parts of a word up to its end. -/
def wordParts? : Nat → Text → Option (Word × Text)
  | 0, _ => none
  | _, [] => some ([], [])
  | steps + 1, c :: t =>
    if endsWord c then some ([], c :: t)
    else
      let onward (part : Word) (t : Text) : Option (Word × Text) :=
        (wordParts? steps t).map fun (rest, t) => (part ++ rest, t)
      match c, t with
      | '\\', '\n' :: t => onward [] t
      | '\\', d :: t => onward [.text true [d]] t
      | '\'', t =>
        let inside := t.takeWhile (· != '\'')
        match t.drop inside.length with
        | _ :: rest => onward [.text true inside] rest
        | [] => none
      | '"', t => do
        let (inside, t) ← doubleQuoted? true (t.length + 1) t
        onward (if inside.isEmpty then [.text true []] else inside) t
      | '$', t =>
        match dollar? t with
        | some (p, other, t) => onward [.parameter false p other] t
        | none => onward [.text false ['$']] t
      | c, t => onward [.text false [c]] t

def word? (t : Text) : Option (Word × Text) :=
  (wordParts? (t.length + 1) t).map fun (w, t) => (merged w, t)

/-- The text of a word whose quotes are taken off. -/
def plainText (w : Word) : Text :=
  w.flatMap fun
    | .text _ t => t
    | .parameter .. => []

/-- Cut the lines before one that equals `stop` out of the lines of a text. -/
def hereLines (stop : Text) (tabs : Bool) : List Text → List Text × List Text
  | [] => ([], [])
  | line :: rest =>
    let line := if tabs then line.dropWhile (· == '\t') else line
    if line == stop then ([], rest)
    else
      let (inside, rest) := hereLines stop tabs rest
      (line :: inside, rest)

/-- Read what follows the mark for a text in the script: the text starts on the
next line and is cut out of what remains. -/
def here? (t : Text) : Option (Redirect × Text) := do
  let (tabs, t) := match t with
    | '-' :: t => (true, t)
    | t => (false, t)
  let (stop, t) ← word? (t.dropWhile fun c => c == ' ' || c == '\t')
  let line := t.takeWhile (· != '\n')
  let (inside, rest) := hereLines (plainText stop) tabs ((t.drop (line.length + 1)).splitOn '\n')
  let body := inside.flatMap (· ++ ['\n'])
  let remaining := line ++ '\n' :: ['\n'].intercalate rest
  match bare? stop with
  | some _ => do
    let (w, _) ← doubleQuoted? false (body.length + 1) body
    return (.here w, remaining)
  | none => return (.here [.text true body], remaining)

/-- Read the path of a redirection. -/
def target? (t : Text) : Option (Word × Text) := do
  let (path, t) ← word? (t.dropWhile fun c => c == ' ' || c == '\t')
  if path.isEmpty then none else some (path, t)

/-- Read a redirection whose first mark has been passed. -/
def redirect? (stream : Option Nat) (c : Char) (t : Text) : Option (Redirect × Text) :=
  match c, t with
  | '>', '&' :: d :: t =>
    if d.isDigit then some (.duplicate (stream.getD 1) (d.toNat - '0'.toNat), t) else none
  | '>', '>' :: t => (target? t).map fun (path, t) => (.toFile (stream.getD 1) path, t)
  | '>', t => (target? t).map fun (path, t) => (.toFile (stream.getD 1) path, t)
  | '<', '<' :: t => here? t
  | _, t => (target? t).map fun (path, t) => (.fromFile path, t)

/-- The breaks in the part of `t` before `rest`. -/
def breaksBefore (t rest : Text) : Nat :=
  (t.take (t.length - rest.length)).count '\n'

/-- Read the tokens of a script.  Every step but the last takes at least one
character. -/
def tokens? : Nat → Nat → Text → Option (List Token)
  | 0, _, _ => none
  | _, _, [] => some []
  | steps + 1, line, c :: t =>
    let mark (m : Text) (t : Text) := (tokens? steps line t).map (.mark m :: ·)
    match c, t with
    | '\n', t => (tokens? steps (line + 1) t).map (.mark ['\n'] :: ·)
    | '\\', '\n' :: t => tokens? steps (line + 1) t
    | '#', t => tokens? steps line (t.dropWhile (· != '\n'))
    | ';', ';' :: t => mark [';', ';'] t
    | '&', '&' :: t => mark ['&', '&'] t
    | '|', '|' :: t => mark ['|', '|'] t
    | c, t =>
      if c == ' ' || c == '\t' then tokens? steps line t
      else if ";&|()".toList.contains c then mark [c] t
      else if c == '<' || c == '>' then do
        let (r, t) ← redirect? none c t
        return .redirect r :: (← tokens? steps line t)
      else
        match c.isDigit, t with
        | true, d :: rest =>
          if d == '<' || d == '>' then do
            let (r, t) ← redirect? (some (c.toNat - '0'.toNat)) d rest
            return .redirect r :: (← tokens? steps line t)
          else do
            let (w, rest) ← word? (c :: t)
            return .word line w :: (← tokens? steps (line + breaksBefore (c :: t) rest) rest)
        | _, t => do
          let (w, rest) ← word? (c :: t)
          return .word line w :: (← tokens? steps (line + breaksBefore (c :: t) rest) rest)

/-! ## Commands -/

/-- The words that end a list of commands. -/
def closers : List Text :=
  ["then", "elif", "else", "fi", "do", "done", "esac", "\x7d"]

/-- The word at the start of tokens, if it has neither quotes nor parameters. -/
def keyword? : List Token → Option Text
  | .word _ w :: _ => bare? w
  | _ => none

def skipBreaks (ts : List Token) : List Token :=
  ts.dropWhile (· == .mark ['\n'])

def expect? (t : Text) (ts : List Token) : Option (List Token) :=
  if keyword? ts == some t then some (ts.drop 1) else none

def startsCommand (ts : List Token) : Bool :=
  match ts with
  | [] => false
  | .mark m :: _ => m == ['(']
  | .redirect _ :: _ => true
  | .word _ w :: _ => !(bare? w).any closers.contains

/-- The variable that a word sets. -/
def assignment? : Word → Option (Text × Word)
  | .text false t :: rest =>
    let name := t.takeWhile isNameChar
    match t.drop name.length with
    | '=' :: value =>
      if name.head?.any isNameStart then
        some (name, if value.isEmpty then rest else .text false value :: rest)
      else none
    | _ => none
  | _ => none

def redirects : List Token → List Redirect × List Token
  | .redirect r :: ts =>
    let (rs, ts) := redirects ts
    (r :: rs, ts)
  | ts => ([], ts)

/-- The words and redirections of a simple command. -/
def simpleParts : List Token → List (Nat × Word) × List Redirect × List Token
  | .redirect r :: ts =>
    let (ws, rs, ts) := simpleParts ts
    (ws, r :: rs, ts)
  | .word line w :: ts =>
    let (ws, rs, ts) := simpleParts ts
    ((line, w) :: ws, rs, ts)
  | ts => ([], [], ts)

def withRedirects (body : Command) (rs : List Redirect) : Command :=
  if rs.isEmpty then body else .redirected body rs

def simpleCommand (words : List (Nat × Word)) : Command :=
  let assignments := (words.map Prod.snd).takeWhile (assignment? · |>.isSome)
  .simple ((words.head?.map Prod.fst).getD 1) (assignments.filterMap assignment?)
    ((words.drop assignments.length).map Prod.snd)

/-- The words before the end of a line or a mark. -/
def wordsOnLine : List Token → List Word × List Token
  | .word _ w :: ts =>
    let (ws, ts) := wordsOnLine ts
    (w :: ws, ts)
  | ts => ([], ts)

/-- The patterns of an arm, which bars separate. -/
def patterns? : List Token → Option (List Word × List Token)
  | .word _ w :: .mark m :: ts =>
    if m == [')'] then some ([w], ts)
    else if m == ['|'] then (patterns? ts).map fun (ws, ts) => (w :: ws, ts)
    else none
  | _ => none

mutual

/-- Read a list of commands.  Every three levels of `depth` take at least one
token. -/
def list? (depth : Nat) (ts : List Token) : Option (Command × List Token) :=
  match depth with
  | 0 => none
  | depth + 1 =>
    let ts := ts.dropWhile fun t => t == .mark ['\n'] || t == .mark [';']
    if !startsCommand ts then some (.nothing, ts)
    else do
      let (first, ts) ← chain? depth ts
      match ts with
      | .mark m :: rest =>
        if m == ['\n'] || m == [';'] then
          let (second, ts) ← list? depth rest
          return (match second with
            | .nothing => first
            | second => .sequence first second, ts)
        else return (first, ts)
      | ts => return (first, ts)

/-- Read commands joined by conditions. -/
def chain? (depth : Nat) (ts : List Token) : Option (Command × List Token) :=
  match depth with
  | 0 => none
  | depth + 1 => do
    let (first, ts) ← command? depth ts
    links? depth first ts

/-- Read what is joined to a command by conditions. -/
def links? (depth : Nat) (first : Command) (ts : List Token) : Option (Command × List Token) :=
  match depth with
  | 0 => none
  | depth + 1 =>
    match ts with
    | .mark ['&', '&'] :: ts => do
      let (second, ts) ← command? depth (skipBreaks ts)
      links? depth (.both first second) ts
    | .mark ['|', '|'] :: ts => do
      let (second, ts) ← command? depth (skipBreaks ts)
      links? depth (.either first second) ts
    | ts => some (first, ts)

def command? (depth : Nat) (ts : List Token) : Option (Command × List Token) :=
  match depth with
  | 0 => none
  | depth + 1 =>
    let compound (body : Command) (ts : List Token) : Command × List Token :=
      let (rs, ts) := redirects ts
      (withRedirects body rs, ts)
    match keyword? ts with
    | some ['!'] => do
      let (body, ts) ← command? depth (ts.drop 1)
      return (.negated body, ts)
    | some ['{'] => do
      let (body, ts) ← list? depth (ts.drop 1)
      return compound body (← expect? ['}'] ts)
    | some ['i', 'f'] => do
      let (body, ts) ← choice? depth (ts.drop 1)
      return compound body ts
    | some ['c', 'a', 's', 'e'] =>
      match ts.drop 1 with
      | .word _ subject :: ts => do
        let ts ← expect? "in" (skipBreaks ts)
        let (arms, ts) ← arms? depth ts
        return compound (.select subject arms) ts
      | _ => none
    | some ['f', 'o', 'r'] =>
      match ts.drop 1 with
      | .word _ name :: ts => do
        let name ← bare? name
        let ts := skipBreaks ts
        let (items, ts) :=
          match expect? "in" ts with
          | some ts => let (ws, ts) := wordsOnLine ts; (some ws, ts)
          | none => (none, ts)
        let ts ← expect? "do" (ts.dropWhile fun t => t == .mark ['\n'] || t == .mark [';'])
        let (body, ts) ← list? depth ts
        return compound (.each name items body) (← expect? "done" ts)
      | _ => none
    | _ =>
      if !startsCommand ts then none
      else
        match ts with
        | .mark _ :: _ => none
        | ts =>
          let (words, rs, ts) := simpleParts ts
          some (withRedirects (simpleCommand words) rs, ts)

/-- Read a choice whose first word has been passed. -/
def choice? (depth : Nat) (ts : List Token) : Option (Command × List Token) :=
  match depth with
  | 0 => none
  | depth + 1 => do
    let (condition, ts) ← list? depth ts
    let (yes, ts) ← list? depth (← expect? "then" ts)
    match keyword? ts with
    | some ['e', 'l', 'i', 'f'] => do
      let (no, ts) ← choice? depth (ts.drop 1)
      return (.choice condition yes no, ts)
    | some ['e', 'l', 's', 'e'] => do
      let (no, ts) ← list? depth (ts.drop 1)
      return (.choice condition yes no, ← expect? "fi" ts)
    | _ => return (.choice condition yes .nothing, ← expect? "fi" ts)

/-- Read the arms of a selection up to its last word. -/
def arms? (depth : Nat) (ts : List Token) :
    Option (List (List Word × Command) × List Token) :=
  match depth with
  | 0 => none
  | depth + 1 =>
    let ts := skipBreaks ts
    match expect? "esac" ts with
    | some ts => some ([], ts)
    | none => do
      let ts := if ts.head? == some (.mark ['(']) then ts.drop 1 else ts
      let (patterns, ts) ← patterns? ts
      let (body, ts) ← list? depth ts
      match ts with
      | .mark [';', ';'] :: ts => do
        let (arms, ts) ← arms? depth ts
        return ((patterns, body) :: arms, ts)
      | ts => return ([(patterns, body)], ← expect? "esac" ts)

end

def parse? (script : Text) : Option Command := do
  let ts ← tokens? (script.length + 1) 1 script
  let (command, rest) ← list? (3 * ts.length + 3) ts
  guard rest.isEmpty
  return command

end Shell

end DevSpecs
