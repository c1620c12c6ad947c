import DevSpecs.Yaml.Printer

/-!
# Lines and positions

A document is read line by line.  A line keeps its text apart from the break that
ends it; the last line has none.  A cursor is a position in a line, together
with what follows there and the lines below.
-/

namespace DevSpecs

namespace Yaml

/-- Why a text is not a document, or its document not a value. -/
inductive ReadError where
  | badCharacter
  | tabInIndentation
  | badDirective
  | badAnchor
  | badTag
  | badEscape
  | badBlockHeader
  | unclosedQuote
  | unexpectedCharacter
  | missingColon
  | keyNotAllowed
  | valueNotAllowed
  | itemNotAllowed
  | unexpectedToken
  | severalDocuments
  | undefinedTagHandle
  | unknownAlias
  | duplicateKey
  | badScalar
  | tooDeep
  | tooManyAliases
  deriving DecidableEq, Repr

def ReadError.message : ReadError → Text
  | badCharacter => "control characters are not allowed"
  | tabInIndentation => "found a tab character that violates indentation"
  | badDirective => "invalid directive"
  | badAnchor => "invalid anchor or alias"
  | badTag => "invalid tag"
  | badEscape => "found unknown escape character"
  | badBlockHeader => "invalid header of a block scalar"
  | unclosedQuote => "found unexpected end of stream in a quoted scalar"
  | unexpectedCharacter => "found character that cannot start any token"
  | missingColon => "could not find expected ':'"
  | keyNotAllowed => "mapping keys are not allowed in this context"
  | valueNotAllowed => "mapping values are not allowed in this context"
  | itemNotAllowed => "block sequence entries are not allowed in this context"
  | unexpectedToken => "did not find expected node content"
  | severalDocuments => "more than one document"
  | undefinedTagHandle => "found undefined tag handle"
  | unknownAlias => "unknown anchor"
  | duplicateKey => "duplicate entry in a mapping"
  | badScalar => "invalid value for its tag or out of range"
  | tooDeep => "recursion limit exceeded"
  | tooManyAliases => "repetition limit exceeded"

/-! ## Lines -/

/-- A line and the break that ends it; breaks of one line are all alike. -/
structure Line where
  text : Text
  ending : Text
  deriving Repr

/-- The lines of a text of which the current one has started. -/
def linesFrom (started : Text) : Text → List Line
  | [] => [⟨started.reverse, []⟩]
  | '\r' :: '\n' :: t => ⟨started.reverse, ['\n']⟩ :: linesFrom [] t
  | c :: t =>
    if c == '\u2028' || c == '\u2029' then ⟨started.reverse, [c]⟩ :: linesFrom [] t
    else if isBreak c then ⟨started.reverse, ['\n']⟩ :: linesFrom [] t
    else linesFrom (c :: started) t

/-- The characters that a document may contain. -/
def isDocumentChar (c : Char) : Bool :=
  let n := c.toNat
  n == 0x09 || n == 0x0A || n == 0x0D || (0x20 ≤ n && n ≤ 0x7E) || n == 0x85 ||
    (0xA0 ≤ n && n ≤ 0xFFFD) || 0x10000 ≤ n

def byteOrderMark : Char := '\uFEFF'

/-! ## Cursors -/

structure Cursor where
  column : Nat
  /-- What follows on the line. -/
  here : Text
  /-- The break that ends the line. -/
  ending : Text
  below : List Line
  deriving Repr

namespace Cursor

def atLine (line : Line) (below : List Line) : Cursor :=
  ⟨0, line.text, line.ending, below⟩

/-- The start of a text; a leading byte order mark belongs to no line. -/
def ofText (t : Text) : Cursor :=
  match linesFrom [] ((Text.dropStart? [byteOrderMark] t).getD t) with
  | [] => ⟨0, [], [], []⟩
  | line :: below => atLine line below

/-- The position `n` characters further on the line. -/
def advance (c : Cursor) (n : Nat) : Cursor :=
  { c with column := c.column + n, here := c.here.drop n }

/-- The position after the characters of the line that satisfy `p`. -/
def skipWhile (c : Cursor) (p : Char → Bool) : Cursor :=
  c.advance (c.here.takeWhile p).length

/-- The end of the text that starts with the given lines. -/
def endOf : List Line → Cursor
  | [] => ⟨0, [], [], []⟩
  | line :: below =>
    match below with
    | [] => ⟨line.text.length, [], line.ending, []⟩
    | next :: rest => endOf (next :: rest)

end Cursor

def isSpaceOrTab (c : Char) : Bool :=
  c == ' ' || c == '\t'

/-- Whether a line starts with the mark between documents. -/
def startsDocument (t : Text) : Bool :=
  startsLikeDocument t && endsOrBlank (t.drop 3)

/-- The next position at which something other than blanks and comments stands,
and whether a simple key may start there.  In a block, every break allows one,
and a tab is a blank only where none may start. -/
def skipBlanks (inFlow : Bool) (keyAllowed : Bool) (c : Cursor) : Cursor × Bool :=
  lines keyAllowed c.below c
where
  /-- The position behind the blanks and the comment of a line. -/
  onLine (keyAllowed : Bool) (c : Cursor) : Cursor :=
    let c := if c.column = 0 && c.here.head? == some byteOrderMark then c.advance 1 else c
    let c := c.skipWhile fun x => x == ' ' || ((inFlow || !keyAllowed) && x == '\t')
    if c.here.head? == some '#' then c.advance c.here.length else c
  lines (keyAllowed : Bool) : List Line → Cursor → Cursor × Bool
    | [], c => (onLine keyAllowed c, keyAllowed)
    | line :: below, c =>
      let c := onLine keyAllowed c
      if c.here.isEmpty then lines (keyAllowed || !inFlow) below (.atLine line below)
      else (c, keyAllowed)

end Yaml

end DevSpecs
