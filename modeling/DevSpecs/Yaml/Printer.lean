import DevSpecs.Text.Utf8
import DevSpecs.Yaml.Scalar

/-!
# The text of a mapping

Mappings and sequences are written as blocks, one entry or item a line, and
empty ones as `{}` and `[]`.  A text is written plain where that reads back
as the same text, otherwise in single quotes; a text of several lines is written
as a literal block; and a text that none of these can hold is written in double
quotes.

A nested block is indented by two columns, except that the items of a sequence
under a key stay in the column of the key.  A key that is long, that has several
lines or that is a collection is written behind a question mark.
-/

namespace DevSpecs

namespace Yaml

/-! ## Characters -/

def isBreak (c : Char) : Bool :=
  c == '\n' || c == '\r' || c == '\u0085' || c == '\u2028' || c == '\u2029'

/-- Blanks and breaks, and the mark of the end of a text. -/
def isBlankOrBreak (c : Char) : Bool :=
  c == ' ' || c == '\t' || isBreak c || c == '\x00'

/-- The characters that may be written as themselves outside double quotes. -/
def isPrintable (c : Char) : Bool :=
  let n := c.toNat
  n == 0x0A || (0x20 ≤ n && n ≤ 0x7E) || (0xA0 ≤ n && n < 0xFFFE && n != 0xFEFF)

/-- Whether a text ends or goes on with a blank or a break. -/
def endsOrBlank (t : Text) : Bool :=
  t.head?.all isBlankOrBreak

/-! ## Which style can hold a text -/

/-- Whether a later part of a text reads as a mark: a colon at the end of a word,
or a hash at the start of one. -/
def hasInnerMark : Text → Bool
  | c :: d :: t =>
    (d == ':' && endsOrBlank t) || (isBlankOrBreak c && d == '#') || hasInnerMark (d :: t)
  | _ => false

/-- Whether a text, written plain, would start with a mark. -/
def startsWithMark : Text → Bool
  | [] => false
  | c :: t =>
    "#,[]\x7b\x7d&*!|>'\"%@`".toList.contains c || ("?:-".toList.contains c && endsOrBlank t)

def startsLikeDocument (t : Text) : Bool :=
  (Text.dropStart? "---" t).isSome || (Text.dropStart? "..." t).isSome

/-- Whether `p` holds of two neighbouring characters. -/
def hasPair (p : Char → Char → Bool) : Text → Bool
  | c :: d :: t => p c d || hasPair p (d :: t)
  | _ => false

def isMultiline (t : Text) : Bool :=
  t.any isBreak

def plainHolds (t : Text) : Bool :=
  !t.isEmpty && t.all isPrintable && !isMultiline t && t.head? != some ' ' &&
    t.getLast? != some ' ' && !startsWithMark t && !startsLikeDocument t && !hasInnerMark t

def singleHolds (t : Text) : Bool :=
  t.all isPrintable && !hasPair (fun c d => c == ' ' && isBreak d) t &&
    !hasPair (fun c d => isBreak c && d == ' ') t

def literalHolds (t : Text) : Bool :=
  !t.isEmpty && t.all isPrintable && !hasPair (fun c d => c == ' ' && isBreak d) t &&
    t.getLast? != some ' '

inductive Style where
  | plain
  | single
  | double
  | literal
  deriving DecidableEq, Repr

def styleOf (t : Text) : Style :=
  if t.contains '\n' then
    if literalHolds t then .literal else .double
  else if standsForItself t && plainHolds t then .plain
  else if singleHolds t then .single
  else .double

/-! ## Scalars -/

def spaces (n : Nat) : Text :=
  List.replicate n ' '

/-- `n` in hexadecimal, with at least `width` digits. -/
def hex (width n : Nat) : Text :=
  let digits := (Nat.toDigits 16 n).map Char.toUpper
  List.replicate (width - digits.length) '0' ++ digits

/-- The escape of a character, if it needs one in double quotes. -/
def escape? (c : Char) : Option Text :=
  match c.toNat with
  | 0x00 => some "\\0"
  | 0x07 => some "\\a"
  | 0x08 => some "\\b"
  | 0x09 => some "\\t"
  | 0x0A => some "\\n"
  | 0x0B => some "\\v"
  | 0x0C => some "\\f"
  | 0x0D => some "\\r"
  | 0x1B => some "\\e"
  | 0x22 => some "\\\""
  | 0x5C => some "\\\\"
  | 0x85 => some "\\N"
  | 0x2028 => some "\\L"
  | 0x2029 => some "\\P"
  | n =>
    if isPrintable c then none
    else if n ≤ 0xFF then some ("\\x" ++ hex 2 n)
    else if n ≤ 0xFFFF then some ("\\u" ++ hex 4 n)
    else some ("\\U" ++ hex 8 n)

def doubleQuoted (t : Text) : Text :=
  '"' :: t.flatMap (fun c => (escape? c).getD [c]) ++ ['"']

/-- The inside of single quotes: a quote is written twice, and a line is indented.
`start` says whether a line starts here. -/
def singleLines (indent : Nat) (start : Bool) : Text → Text
  | [] => if start then spaces indent else []
  | c :: t =>
    if isBreak c then c :: singleLines indent true t
    else
      (if start then spaces indent else []) ++ (if c == '\'' then [c, c] else [c]) ++
        singleLines indent false t

def singleQuoted (indent : Nat) (t : Text) : Text :=
  '\'' :: singleLines indent false t ++ ['\'']

/-- The lines of a literal block; blank ones are not indented. -/
def literalLines (indent : Nat) (start : Bool) : Text → Text
  | [] => []
  | c :: t =>
    if isBreak c then c :: literalLines indent true t
    else (if start then spaces indent else []) ++ c :: literalLines indent false t

/-- How a literal block treats the breaks at its end. -/
def chomping (t : Text) : Text :=
  match t.reverse with
  | c :: rest => if !isBreak c then ['-'] else if rest.head?.all isBreak then ['+'] else []
  | [] => ['-']

def literal (indent : Nat) (t : Text) : Text :=
  let hint : Text := if t.head?.any fun c => c == ' ' || isBreak c then ['2'] else []
  '|' :: hint ++ chomping t ++ '\n' :: literalLines indent true t

/-- A text in its style; further lines are indented. -/
def quoted (indent : Nat) (t : Text) : Text :=
  match styleOf t with
  | .plain => t
  | .single => singleQuoted indent t
  | .double => doubleQuoted t
  | .literal => literal indent t

/-- The characters of a tag that are written as themselves. -/
def isTagChar (c : Char) : Bool :=
  Text.isAlphanumeric c || "-;/?:@&=+$,_.~*'()[]".toList.contains c

/-- A tag with its exclamation mark; other characters are written byte by byte. -/
def writtenTag (tag : Text) : Text :=
  '!' :: tag.flatMap fun c =>
    if isTagChar c then [c]
    else (String.utf8EncodeChar c).flatMap fun byte => '%' :: hex 2 byte.toNat

/-! ## Nodes -/

/-- The text of a node that fits on a line with further text: a scalar, or an
empty collection. -/
def inline? (indent : Nat) : Yaml → Option Text
  | null => some "null"
  | bool b => some (if b then "true" else "false")
  | int i => some (Text.ofInt i)
  | float x => some (floatText x)
  | str t => some (quoted indent t)
  | seq [] => some "[]"
  | map [] => some "\x7b\x7d"
  | tagged tag value => (inline? indent value).map fun t => writtenTag tag ++ ' ' :: t
  | _ => none

/-- How long a key is, if it has a single line and is no collection. -/
def keyLength? : Yaml → Option Nat
  | str t => if isMultiline t then none else some (Utf8.byteCount t)
  | tagged tag value => (keyLength? value).map (· + (Utf8.byteCount tag + 1))
  | seq [] => some 0
  | map [] => some 0
  | value => (inline? 0 value).map List.length

/-- The text of a key that is written without a question mark. -/
def simpleKey? (key : Yaml) : Option Text :=
  match keyLength? key with
  | some n => if n ≤ 128 then inline? 0 key else none
  | none => none

structure Place where
  /-- The column of the block around it. -/
  indent : Nat
  /-- Whether that block is a mapping. -/
  inMapping : Bool
  /-- Whether only marks stand before it on its line. -/
  fresh : Bool

/-- End the line unless it has ended. -/
def endLine (t : Text) : Text :=
  if t.getLast?.any isBreak then t else t ++ ['\n']

/-- Lines one below the other in a column, the first of them started. -/
def stack (indent : Nat) : List Text → Text
  | [] => []
  | [line] => line
  | line :: rest => endLine line ++ spaces indent ++ stack indent rest

/-- A block whose lines stand in a column. -/
def block (place : Place) (indent : Nat) (lines : List Text) : Text :=
  (if place.fresh then [' '] else '\n' :: spaces indent) ++ stack indent lines

mutual

/-- A node with the blank or the break before it. -/
def node (place : Place) : Yaml → Text
  | tagged tag value => ' ' :: writtenTag tag ++ node { place with fresh := false } value
  | seq (item :: items) =>
    let indent := if place.inMapping && !place.fresh then place.indent else place.indent + 2
    block place indent (itemLines indent (item :: items))
  | map (entry :: entries) =>
    let indent := place.indent + 2
    block place indent (entryLines indent (entry :: entries))
  | value => ' ' :: (inline? (place.indent + 2) value).getD []
termination_by structural v => v

def itemLines (indent : Nat) : List Yaml → List Text
  | [] => []
  | item :: items => ('-' :: node ⟨indent, false, true⟩ item) :: itemLines indent items
termination_by structural vs => vs

def entryLines (indent : Nat) : List (Yaml × Yaml) → List Text
  | [] => []
  | entry :: entries => entryLine indent entry :: entryLines indent entries
termination_by structural es => es

def entryLine (indent : Nat) : Yaml × Yaml → Text
  | (key, value) =>
    match simpleKey? key with
    | some k => k ++ ':' :: node ⟨indent, true, false⟩ value
    | none =>
      stack indent ['?' :: node ⟨indent, true, true⟩ key, ':' :: node ⟨indent, true, true⟩ value]
termination_by structural e => e

end

/-! ## What can be written -/

/-- Whether a key would be taken for the tag of the only entry it belongs to. -/
def readsAsTag : Yaml → Bool
  | tagged _ _ => true
  | map [_] => true
  | _ => false

mutual

/-- Whether a value can be written.  A tag cannot stand on a tagged value, and
the key of an only entry must not look like a tag. -/
def isWritable (underTag : Bool) : Yaml → Bool
  | tagged _ value => !underTag && isWritable true value
  | seq items => allWritable items
  | map entries =>
    (underTag || entries.length != 1 || !entries.any fun entry => readsAsTag entry.1) &&
      entriesWritable entries
  | _ => true
termination_by structural v => v

def allWritable : List Yaml → Bool
  | [] => true
  | item :: items => isWritable false item && allWritable items
termination_by structural vs => vs

def entriesWritable : List (Yaml × Yaml) → Bool
  | [] => true
  | entry :: entries => entryWritable entry && entriesWritable entries
termination_by structural es => es

def entryWritable : Yaml × Yaml → Bool
  | (key, value) => isWritable false key && isWritable false value
termination_by structural e => e

end

namespace Entries

/-- The text of a mapping, if it can be written. -/
def print? (entries : Entries) : Option Text :=
  if isWritable false (map entries) then
    some (if entries.isEmpty then "\x7b\x7d\n" else endLine (stack 0 (entryLines 0 entries)))
  else
    none

end Entries

end Yaml

end DevSpecs
