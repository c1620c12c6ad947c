import DevSpecs.Yaml.Token
import DevSpecs.Yaml.Token.Scalar

/-!
# Reading tokens

A text is cut into tokens from its start to its end.  The column of the first
token on a line closes the blocks that lie to its right.  Whether a token is a
key of a block mapping shows only at the colon after it, which must stand on the
same line; the lexer remembers where such a key may have started and puts the
token for the key there.
-/

namespace DevSpecs

namespace Yaml

/-! ## Directives, anchors and tags -/

def isWordChar (c : Char) : Bool :=
  Text.isAlphanumeric c || c == '_' || c == '-'

/-- The characters of tags; in brackets there are more of them. -/
def isUriChar (bracketed : Bool) (c : Char) : Bool :=
  isWordChar c || ";/?:@&=+$.%!~*'()".toList.contains c ||
    (bracketed && ",[]".toList.contains c)

/-- The bits of a byte that follow the first one of a character. -/
def continuation? (byte : Nat) : Option Nat :=
  if byte / 64 = 2 then some (byte % 64) else none

/-- A byte written as a percent sign and two digits. -/
def escapedByte? : Text → Option (Nat × Text)
  | '%' :: c :: d :: t => (naturalOf? 16 [c, d]).map (·, t)
  | _ => none

/-- Read the further bytes of a character. -/
def escapedTail? (code : Nat) : Nat → Text → Option (Nat × Text)
  | 0, t => some (code, t)
  | n + 1, t => do
    let (byte, t) ← escapedByte? t
    escapedTail? (code * 64 + (← continuation? byte)) n t

/-- A character whose bytes are written with percent signs. -/
def escapedChar? (t : Text) : Option (Char × Text) := do
  let (byte, t) ← escapedByte? t
  let (code, t) ←
    if byte < 0x80 then some (byte, t)
    else if byte / 32 = 6 then escapedTail? (byte % 32) 1 t
    else if byte / 16 = 14 then escapedTail? (byte % 16) 2 t
    else if byte / 8 = 30 then escapedTail? (byte % 8) 3 t
    else none
  return (← charOf? code, t)

/-- The meaning of a run of tag characters.  Every round takes at least one. -/
def unescapeUri : Nat → Text → Except ReadError Text
  | 0, _ => .ok []
  | _, [] => .ok []
  | rounds + 1, c :: t =>
    if c == '%' then
      match escapedChar? (c :: t) with
      | some (meaning, t) => (unescapeUri rounds t).map (meaning :: ·)
      | none => .error .badTag
    else (unescapeUri rounds t).map (c :: ·)

/-- Read tag characters: what they mean and what follows. -/
def uri (bracketed : Bool) (t : Text) : Except ReadError (Text × Text) := do
  let run := t.takeWhile (isUriChar bracketed)
  return (← unescapeUri run.length run, t.drop run.length)

/-- Read a tag and give the rest of the line. -/
def tagToken (inFlow : Bool) (t : Text) : Except ReadError (Token × Text) := do
  let (token, rest) ←
    match t with
    | '!' :: '<' :: t => do
      let (suffix, rest) ← uri true t
      match suffix, rest with
      | _ :: _, '>' :: rest => pure (Token.tag [] suffix, rest)
      | _, _ => throw .badTag
    | t => do
      let word := (t.drop 1).takeWhile isWordChar
      match t.drop (1 + word.length) with
      | '!' :: rest => do
        let (suffix, rest) ← uri false rest
        if suffix.isEmpty then throw .badTag
        pure (Token.tag ('!' :: word ++ ['!']) suffix, rest)
      | rest => do
        let (suffix, rest) ← uri false rest
        match word ++ suffix with
        | [] => pure (Token.tag [] ['!'], rest)
        | suffix => pure (Token.tag ['!'] suffix, rest)
  unless endsOrBlank rest || (inFlow && rest.head? == some ',') do throw .badTag
  return (token, rest)

/-- Read the name of an anchor or an alias and give the rest of the line. -/
def anchorName (t : Text) : Except ReadError (Text × Text) :=
  let name := t.takeWhile isWordChar
  let rest := t.drop name.length
  if name.isEmpty then .error .badAnchor
  else if endsOrBlank rest || (rest.head?.any fun c => "?:,]\x7d%@`".toList.contains c) then
    .ok (name, rest)
  else .error .badAnchor

/-- A number of a version, with at most nine digits, and what follows. -/
def versionNumber (t : Text) : Except ReadError (Nat × Text) :=
  let digits := t.takeWhile Char.isDigit
  match naturalOf? 10 digits with
  | some n => if digits.length ≤ 9 then .ok (n, t.drop digits.length) else .error .badDirective
  | none => .error .badDirective

def versionDirective (t : Text) : Except ReadError (Token × Text) := do
  let (major, t) ← versionNumber (t.dropWhile isSpaceOrTab)
  match t with
  | '.' :: t => do
    let (minor, t) ← versionNumber t
    return (.version major minor, t)
  | _ => throw .badDirective

def tagDirective (t : Text) : Except ReadError (Token × Text) := do
  match t.dropWhile isSpaceOrTab with
  | '!' :: t => do
    let word := t.takeWhile isWordChar
    let (handle, t) ←
      match t.drop word.length with
      | '!' :: t => pure ('!' :: word ++ ['!'], t)
      | t => if word.isEmpty then pure (['!'], t) else throw .badDirective
    unless t.head?.any isSpaceOrTab do throw .badDirective
    let (meaning, t) ← uri true (t.dropWhile isSpaceOrTab)
    if meaning.isEmpty || !endsOrBlank t then throw .badDirective
    return (.tagDirective handle meaning, t)
  | _ => throw .badDirective

/-- Read the directive behind a percent sign; it fills its line but for a
comment. -/
def directive (t : Text) : Except ReadError Token := do
  let name := t.takeWhile isWordChar
  let rest := t.drop name.length
  unless endsOrBlank rest do throw .badDirective
  let (token, rest) ←
    if name == "YAML" then versionDirective rest
    else if name == "TAG" then tagDirective rest
    else throw .badDirective
  match rest.dropWhile isSpaceOrTab with
  | [] => return token
  | c :: _ => if c == '#' then return token else throw .badDirective

/-! ## The lexer -/

/-- A place where a key may have started. -/
structure PossibleKey where
  /-- Whether nothing but a key may stand there. -/
  required : Bool
  /-- How many tokens there are before it. -/
  position : Nat
  /-- How many lines there are below it. -/
  below : Nat
  column : Nat

/-- The state of reading tokens. -/
structure Lexer where
  cursor : Cursor
  /-- The columns of the open blocks, innermost first. -/
  blocks : List Nat := []
  /-- Whether a key may start at the next token. -/
  keyAllowed : Bool := true
  key : Option PossibleKey := none
  /-- The possible keys around the open flow collections, innermost first. -/
  outerKeys : List (Option PossibleKey) := []
  /-- The tokens read, the latest first. -/
  tokens : List Token := []

namespace Lexer

abbrev Step := Except ReadError Lexer

def inFlow (l : Lexer) : Bool :=
  !l.outerKeys.isEmpty

def push (l : Lexer) (token : Token) : Lexer :=
  { l with tokens := token :: l.tokens }

/-- Put a token behind the first `position` ones. -/
def insert (l : Lexer) (position : Nat) (token : Token) : Lexer :=
  let later := l.tokens.length - position
  { l with tokens := l.tokens.take later ++ token :: l.tokens.drop later }

/-- Close the blocks that satisfy `p`, from the innermost on. -/
def closeBlocks (l : Lexer) (p : Nat → Bool) : Lexer :=
  if l.inFlow then l
  else
    let closed := l.blocks.takeWhile p
    { l with
      blocks := l.blocks.dropWhile p
      tokens := closed.map (fun _ => Token.blockEnd) ++ l.tokens }

/-- Open a block at a column unless that is not to the right of the last one. -/
def openBlock (l : Lexer) (column position : Nat) (token : Token) : Lexer :=
  if !l.inFlow && l.blocks.head?.all (· < column) then
    { l with blocks := column :: l.blocks }.insert position token
  else l

def dropKey (l : Lexer) : Step :=
  if l.key.any (·.required) then .error .missingColon else .ok { l with key := none }

def noteKey (l : Lexer) : Step := do
  if !l.keyAllowed then
    return l
  let l ← l.dropKey
  let required := !l.inFlow && l.blocks.head? == some l.cursor.column
  return { l with
    key := some ⟨required, l.tokens.length, l.cursor.below.length, l.cursor.column⟩ }

/-- The possible key, if the position is still on its line and near enough. -/
def validKey? (l : Lexer) : Except ReadError (Option PossibleKey) :=
  match l.key with
  | none => .ok none
  | some key =>
    if key.below = l.cursor.below.length && l.cursor.column ≤ key.column + 1024 then .ok (some key)
    else if key.required then .error .missingColon
    else .ok none

/-- Go on `n` characters and add a token. -/
def take (l : Lexer) (n : Nat) (token : Token) : Lexer :=
  { l with cursor := l.cursor.advance n }.push token

/-- Go on to the rest of the line and add a token. -/
def takeTo (l : Lexer) (rest : Text) (token : Token) : Lexer :=
  { l with cursor := behind l.cursor rest }.push token

def finish (l : Lexer) : Step := do
  let l ← (l.closeBlocks fun _ => true).dropKey
  return { l with keyAllowed := false }.push .streamEnd

def betweenDocuments (l : Lexer) : Step := do
  let l ← (l.closeBlocks fun _ => true).dropKey
  return { l with keyAllowed := false }

def flowStart (l : Lexer) (token : Token) : Step := do
  let l ← l.noteKey
  return { l with outerKeys := l.key :: l.outerKeys, key := none, keyAllowed := true }.take 1 token

def flowEnd (l : Lexer) (token : Token) : Step := do
  let l ← l.dropKey
  let l :=
    match l.outerKeys with
    | [] => l
    | key :: outer => { l with key := key, outerKeys := outer }
  return { l with keyAllowed := false }.take 1 token

def comma (l : Lexer) : Step := do
  let l ← l.dropKey
  return { l with keyAllowed := true }.take 1 .comma

def item (l : Lexer) : Step := do
  if !l.inFlow && !l.keyAllowed then
    throw .itemNotAllowed
  let l ← (l.openBlock l.cursor.column l.tokens.length .blockSequence).dropKey
  return { l with keyAllowed := true }.take 1 .item

def explicitKey (l : Lexer) : Step := do
  if !l.inFlow && !l.keyAllowed then
    throw .keyNotAllowed
  let l ← (l.openBlock l.cursor.column l.tokens.length .blockMapping).dropKey
  return { l with keyAllowed := !l.inFlow }.take 1 .key

def value (l : Lexer) : Step := do
  match ← l.validKey? with
  | some key =>
    let l := (l.insert key.position .key).openBlock key.column key.position .blockMapping
    return { l with key := none, keyAllowed := false }.take 1 .value
  | none =>
    if !l.inFlow && !l.keyAllowed then
      throw .valueNotAllowed
    let l := l.openBlock l.cursor.column l.tokens.length .blockMapping
    return { l with keyAllowed := !l.inFlow }.take 1 .value

/-- A token that may be a key: an alias, an anchor, a tag or a scalar. -/
def keyStart (l : Lexer) : Step := do
  let l ← l.noteKey
  return { l with keyAllowed := false }

/-- Whether a character may start a plain scalar, given what follows. -/
def startsPlain (inFlow : Bool) (c : Char) (t : Text) : Bool :=
  !(isSpaceOrTab c || "-?:,[]\x7b\x7d#&*!|>'\"%@`".toList.contains c) ||
    (c == '-' && !t.head?.any isSpaceOrTab) ||
    (!inFlow && (c == '?' || c == ':') && !endsOrBlank t)

def plain (l : Lexer) : Step := do
  let l ← l.keyStart
  let context : PlainContext := ⟨l.inFlow, (l.blocks.head?.map (· + 1)).getD 0⟩
  let scanned ← plainScalar context l.cursor
  return { l with
    cursor := scanned.cursor
    keyAllowed := scanned.afterBreak }.push (.scalar true scanned.text)

def quoted (l : Lexer) (single : Bool) : Step := do
  let l ← l.keyStart
  let scanned ← quotedScalar single (l.cursor.advance 1)
  return { l with cursor := scanned.cursor }.push (.scalar false scanned.text)

def blockText (l : Lexer) (literal : Bool) : Step := do
  let l ← l.dropKey
  let scanned ← blockScalar literal l.blocks.head? (l.cursor.advance 1)
  return { l with cursor := scanned.cursor, keyAllowed := true }.push (.scalar false scanned.text)

/-- Read the token that starts at the position, where `c` and then `t` stand. -/
def tokenAt (l : Lexer) (c : Char) (t : Text) : Step := do
  let inFlow := l.inFlow
  match c with
  | '[' => l.flowStart .flowSequence
  | ']' => l.flowEnd .flowSequenceEnd
  | '{' => l.flowStart .flowMapping
  | '}' => l.flowEnd .flowMappingEnd
  | ',' => l.comma
  | '*' => do
    let l ← l.keyStart
    let (name, rest) ← anchorName t
    return l.takeTo rest (.alias name)
  | '&' => do
    let l ← l.keyStart
    let (name, rest) ← anchorName t
    return l.takeTo rest (.anchor name)
  | '!' => do
    let l ← l.keyStart
    let (token, rest) ← tagToken inFlow (c :: t)
    return l.takeTo rest token
  | '\'' => l.quoted true
  | '"' => l.quoted false
  | c =>
    if c == '-' && endsOrBlank t then l.item
    else if c == '?' && (inFlow || endsOrBlank t) then l.explicitKey
    else if c == ':' && (inFlow || endsOrBlank t) then l.value
    else if c == '|' && !inFlow then l.blockText true
    else if c == '>' && !inFlow then l.blockText false
    else if startsPlain inFlow c t then l.plain
    else throw .unexpectedCharacter

/-- Read the next token and the marks of blocks that belong to it. -/
def next (l : Lexer) : Step := do
  let (cursor, keyAllowed) := skipBlanks l.inFlow l.keyAllowed l.cursor
  let l := { l with cursor := cursor, keyAllowed := keyAllowed }.closeBlocks (cursor.column < ·)
  match cursor.here with
  | [] => l.finish
  | c :: t =>
    if cursor.column = 0 && c == '%' then do
      let l ← l.betweenDocuments
      return l.take (t.length + 1) (← directive t)
    else if cursor.column = 0 && startsDocument (c :: t) then do
      let l ← l.betweenDocuments
      return l.take 3 (if c == '-' then .documentStart else .documentEnd)
    else l.tokenAt c t

/-- Read all tokens.  Every round but the last takes at least one character. -/
def run : Nat → Lexer → Except ReadError (List Token)
  | 0, _ => .error .unexpectedToken
  | rounds + 1, l => do
    let l ← l.next
    if l.tokens.head? == some .streamEnd then
      return l.tokens.reverse
    run rounds l

end Lexer

def tokensOf (t : Text) : Except ReadError (List Token) :=
  if t.all isDocumentChar then Lexer.run (t.length + 1) { cursor := .ofText t }
  else .error .badCharacter

end Yaml

end DevSpecs
