import DevSpecs.Yaml.Cursor

/-!
# Reading scalars

Scalars may run over several lines.  In plain and quoted scalars a single break
between two lines becomes a space, and of several breaks the first is dropped.
The lines of a block scalar are kept, or folded by the same rule unless they
start with a blank.
-/

namespace DevSpecs

namespace Yaml

/-- What stands between two lines of a scalar: the break after the first one and
the breaks of the blank lines that follow. -/
structure Gap where
  first : Text
  further : Text

def Gap.text (gap : Gap) : Text :=
  if gap.first.head? == some '\n' then
    if gap.further.isEmpty then [' '] else gap.further
  else gap.first ++ gap.further

/-! ## Plain scalars -/

structure PlainContext where
  inFlow : Bool
  /-- The least column of a further line. -/
  indent : Nat

/-- The characters that end a plain scalar in a flow collection. -/
def isFlowMark (c : Char) : Bool :=
  ",[]\x7b\x7d".toList.contains c

/-- Read a plain scalar on one line.  The texts read and the blanks after them
are given in reverse.  The result is what has been read, and the rest of the line
if the scalar ends on it. -/
def plainLine (inFlow : Bool) (read blanks : Text) : Text → Except ReadError (Text × Option Text)
  | [] => .ok (read, none)
  | c :: t =>
    if isSpaceOrTab c then plainLine inFlow read (c :: blanks) t
    else if c == '#' && !blanks.isEmpty then .ok (read, some (c :: t))
    else if inFlow && c == ':' && (t.head?.any fun d => d == '?' || isFlowMark d) then
      .error .unexpectedCharacter
    else if (c == ':' && endsOrBlank t) || (inFlow && isFlowMark c) then .ok (read, some (c :: t))
    else plainLine inFlow (c :: blanks ++ read) [] t

/-- A scalar that has been read: its text and the position behind it. -/
structure Scanned where
  text : Text
  cursor : Cursor
  /-- Whether the position is on a later line than the last character. -/
  afterBreak : Bool := false

/-- Where the rest of a line starts, given the line. -/
def behind (line : Cursor) (rest : Text) : Cursor :=
  { line with column := line.column + (line.here.length - rest.length), here := rest }

def plainLines (context : PlainContext) (read : Text) (gap : Gap) :
    List Line → Except ReadError Scanned
  | [] => .ok ⟨read.reverse, ⟨0, [], [], []⟩, true⟩
  | line :: below =>
    let blanks := line.text.takeWhile isSpaceOrTab
    if (blanks.take context.indent).contains '\t' then .error .tabInIndentation
    else
      let start := (Cursor.atLine line below).advance blanks.length
      let ended : Except ReadError Scanned := .ok ⟨read.reverse, start, true⟩
      match start.here with
      | [] =>
        if line.ending.isEmpty then ended
        else plainLines context read { gap with further := gap.further ++ line.ending } below
      | c :: t =>
        if (!context.inFlow && start.column < context.indent) ||
            (start.column == 0 && startsDocument (c :: t)) || c == '#' then ended
        else
          match plainLine context.inFlow (gap.text.reverse ++ read) [] (c :: t) with
          | .error e => .error e
          | .ok (more, some rest) =>
            if rest.length = (c :: t).length then ended
            else .ok ⟨more.reverse, behind start rest, false⟩
          | .ok (more, none) => plainLines context more ⟨line.ending, []⟩ below

def plainScalar (context : PlainContext) (c : Cursor) : Except ReadError Scanned :=
  match plainLine context.inFlow [] [] c.here with
  | .error e => .error e
  | .ok (read, some rest) => .ok ⟨read.reverse, behind c rest, false⟩
  | .ok (read, none) =>
    if c.ending.isEmpty then .ok ⟨read.reverse, c.advance c.here.length, false⟩
    else plainLines context read ⟨c.ending, []⟩ c.below

/-! ## Quoted scalars -/

def escapeMeaning? : Char → Option Char
  | '0' => some '\x00'
  | 'a' => some '\x07'
  | 'b' => some '\x08'
  | 't' => some '\t'
  | '\t' => some '\t'
  | 'n' => some '\n'
  | 'v' => some '\x0B'
  | 'f' => some '\x0C'
  | 'r' => some '\r'
  | 'e' => some '\x1B'
  | ' ' => some ' '
  | '"' => some '"'
  | '/' => some '/'
  | '\\' => some '\\'
  | 'N' => some '\u0085'
  | '_' => some '\u00A0'
  | 'L' => some '\u2028'
  | 'P' => some '\u2029'
  | _ => none

/-- How many hexadecimal digits an escape takes. -/
def escapeWidth? : Char → Option Nat
  | 'x' => some 2
  | 'u' => some 4
  | 'U' => some 8
  | _ => none

def charOf? (code : Nat) : Option Char :=
  if code.isValidChar then some (Char.ofNat code) else none

/-- What follows a backslash: a character and the rest of the line. -/
def escaped? : Text → Option (Char × Text)
  | [] => none
  | c :: t =>
    match escapeMeaning? c, escapeWidth? c with
    | some meaning, _ => some (meaning, t)
    | none, some width =>
      if t.length < width then none
      else do
        let code ← naturalOf? 16 (t.take width)
        return (← charOf? code, t.drop width)
    | none, none => none

/-- How a line of a quoted scalar ends. -/
inductive QuotedEnd where
  /-- By the closing quote; the rest of the line follows. -/
  | closed (rest : Text)
  | atBreak
  /-- By a break that stands for nothing. -/
  | atEscapedBreak

/-- Read a quoted scalar on one line, as `plainLine` does.  Every round takes at
least one character. -/
def quotedLine (single broken : Bool) (rounds : Nat) (read blanks : Text) (t : Text) :
    Except ReadError (Text × QuotedEnd) :=
  match rounds, t with
  | 0, _ => .ok (read, .atBreak)
  | _, [] => .ok (read, .atBreak)
  | rounds + 1, c :: t =>
    if isSpaceOrTab c then quotedLine single broken rounds read (c :: blanks) t
    else
      let read := blanks ++ read
      if single then
        match c, t with
        | '\'', '\'' :: t => quotedLine single broken rounds ('\'' :: read) [] t
        | '\'', t => .ok (read, .closed t)
        | c, t => quotedLine single broken rounds (c :: read) [] t
      else
        match c with
        | '"' => .ok (read, .closed t)
        | '\\' =>
          if t.isEmpty && broken then .ok (read, .atEscapedBreak)
          else
            match escaped? t with
            | some (meaning, t) => quotedLine single broken rounds (meaning :: read) [] t
            | none => .error .badEscape
        | c => quotedLine single broken rounds (c :: read) [] t

def quotedLines (single : Bool) (read : Text) (gap : Gap) : List Line → Except ReadError Scanned
  | [] => .error .unclosedQuote
  | line :: below =>
    if startsDocument line.text then .error .unclosedQuote
    else
      let start := (Cursor.atLine line below).skipWhile isSpaceOrTab
      if start.here.isEmpty then
        quotedLines single read { gap with further := gap.further ++ line.ending } below
      else
        match quotedLine single (!line.ending.isEmpty) start.here.length
            (gap.text.reverse ++ read) [] start.here with
        | .error e => .error e
        | .ok (read, .closed rest) => .ok ⟨read.reverse, behind start rest, false⟩
        | .ok (read, .atBreak) => quotedLines single read ⟨line.ending, []⟩ below
        | .ok (read, .atEscapedBreak) => quotedLines single read ⟨[], []⟩ below

/-- Read the quoted scalar whose opening quote has been passed. -/
def quotedScalar (single : Bool) (c : Cursor) : Except ReadError Scanned :=
  match quotedLine single (!c.ending.isEmpty) c.here.length [] [] c.here with
  | .error e => .error e
  | .ok (read, .closed rest) => .ok ⟨read.reverse, behind c rest, false⟩
  | .ok (read, .atBreak) => quotedLines single read ⟨c.ending, []⟩ c.below
  | .ok (read, .atEscapedBreak) => quotedLines single read ⟨[], []⟩ c.below

/-! ## Block scalars -/

/-- How the breaks at the end of a block scalar are treated. -/
inductive Chomping where
  | strip
  | clip
  | keep
  deriving DecidableEq, Repr

structure BlockHeader where
  chomping : Chomping
  /-- The indentation beyond that of the parent, if it is given. -/
  increment : Option Nat

def chompingOf? : Char → Option Chomping
  | '+' => some .keep
  | '-' => some .strip
  | _ => none

/-- Take the sign for the breaks at the end off a header. -/
def takeChomping : Text → Option Chomping × Text
  | c :: t =>
    match chompingOf? c with
    | some chomping => (some chomping, t)
    | none => (none, c :: t)
  | [] => (none, [])

/-- Take the indentation off a header. -/
def takeIncrement : Text → Except ReadError (Option Nat × Text)
  | c :: t =>
    if c == '0' then .error .badBlockHeader
    else if c.isDigit then .ok (digitValue? c, t)
    else .ok (none, c :: t)
  | [] => .ok (none, [])

/-- Read a header, which fills its line but for a comment. -/
def blockHeader (t : Text) : Except ReadError BlockHeader := do
  let (before, t) := takeChomping t
  let (increment, t) ← takeIncrement t
  let (after, t) := if before.isNone && increment.isSome then takeChomping t else (none, t)
  match t.dropWhile isSpaceOrTab with
  | [] => pure ()
  | c :: _ => unless c == '#' do throw .badBlockHeader
  return ⟨((before <|> after).getD .clip), increment⟩

/-- The indentation of a block scalar that does not give it: the greatest of its
leading blank lines and its first other line. -/
def detectIndent (least : Nat) : List Line → Except ReadError Nat
  | [] => .ok least
  | line :: below =>
    let width := (line.text.takeWhile (· == ' ')).length
    let rest := line.text.drop width
    if rest.head? == some '\t' then .error .tabInIndentation
    else if rest.isEmpty && !line.ending.isEmpty then detectIndent (max least width) below
    else .ok (max least width)

/-- What has been read of a block scalar, in reverse, and what is still open. -/
structure BlockRead where
  read : Text := []
  gap : Gap := ⟨[], []⟩
  /-- Whether the last line started with a blank. -/
  blankStart : Bool := false

/-- Add a line.  Folding applies between two lines that start with no blank. -/
def BlockRead.add (r : BlockRead) (literal : Bool) (t ending : Text) : BlockRead :=
  let blankStart := t.head?.any isSpaceOrTab
  let between :=
    if !literal && r.gap.first.head? == some '\n' && !r.blankStart && !blankStart then r.gap.text
    else r.gap.first ++ r.gap.further
  ⟨t.reverse ++ (between.reverse ++ r.read), ⟨ending, []⟩, blankStart⟩

def blockLines (literal : Bool) (indent : Nat) (r : BlockRead) :
    List Line → Except ReadError (BlockRead × Cursor)
  | [] => .ok (r, ⟨0, [], [], []⟩)
  | line :: below =>
    let width := min indent (line.text.takeWhile (· == ' ')).length
    let start := (Cursor.atLine line below).advance width
    match start.here with
    | [] =>
      if line.ending.isEmpty then .ok (r, start)
      else
        blockLines literal indent
          { r with gap := { r.gap with further := r.gap.further ++ line.ending } } below
    | c :: t =>
      if width < indent then
        if c == '\t' then .error .tabInIndentation else .ok (r, start)
      else blockLines literal indent (r.add literal (c :: t) line.ending) below

/-- Read the block scalar whose mark has been passed; `parent` is the column of
the block around it. -/
def blockScalar (literal : Bool) (parent : Option Nat) (c : Cursor) :
    Except ReadError Scanned := do
  let header ← blockHeader c.here
  let lines := if c.ending.isEmpty then [] else c.below
  let indent ←
    match header.increment with
    | some increment => pure (parent.getD 0 + increment)
    | none => detectIndent (max 1 ((parent.map (· + 1)).getD 0)) lines
  let (r, cursor) ← blockLines literal indent {} lines
  let ending :=
    match header.chomping with
    | .strip => []
    | .clip => r.gap.first
    | .keep => r.gap.first ++ r.gap.further
  return ⟨r.read.reverse ++ ending, cursor, true⟩

end Yaml

end DevSpecs
