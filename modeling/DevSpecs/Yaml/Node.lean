import DevSpecs.Yaml.Token

/-!
# The nodes of a document

A document is a tree of nodes, which may carry tags and anchors.  An alias stands
for the node that carries its anchor.  Anchors are numbered by the count of names
that were in use when they were set, so a name that is set again may share its
number with a later one; the number then belongs to the node that starts last.
-/

namespace DevSpecs

namespace Yaml

inductive Node where
  | alias (anchor : Nat)
  | scalar (tag : Option Text) (plain : Bool) (text : Text)
  | seq (tag : Option Text) (items : List Node)
  | map (tag : Option Text) (entries : List (Node × Node))
  deriving Repr

namespace Node

/-- The scalar in a place that is left empty. -/
def empty : Node :=
  scalar none true []

end Node

structure Anchored where
  anchor : Nat
  /-- How many anchors were set before. -/
  order : Nat
  node : Node

/-- A document: its root, the nodes with anchors, and the number of its events, of
which a collection has two and any other node one. -/
structure Document where
  root : Node
  anchored : List Anchored
  events : Nat

namespace Document

/-- What is known while nodes are read. -/
structure State where
  tokens : List Token
  /-- The meanings of tag handles. -/
  handles : List (Text × Text) := []
  /-- The names of anchors and their numbers. -/
  anchors : List (Text × Nat) := []
  anchored : List Anchored := []
  /-- How many anchors have been set. -/
  set : Nat := 0
  events : Nat := 0

abbrev Reading := StateT State (Except ReadError)

def peek : Reading Token := do
  return (← get).tokens.headD .streamEnd

def skip : Reading Unit :=
  modify fun s => { s with tokens := s.tokens.drop 1 }

def count (events : Nat) : Reading Unit :=
  modify fun s => { s with events := s.events + events }

/-- A scalar in a place that is left empty. -/
def emptyScalar : Reading Node := do
  count 1
  return .empty

/-! ## Properties -/

/-- The anchor and the tag in front of a node, in either order. -/
def properties : Reading (Option Text × Option (Text × Text)) := do
  match ← peek with
  | .anchor name => do
    skip
    match ← peek with
    | .tag handle suffix => do
      skip
      return (some name, some (handle, suffix))
    | _ => return (some name, none)
  | .tag handle suffix => do
    skip
    match ← peek with
    | .anchor name => do
      skip
      return (some name, some (handle, suffix))
    | _ => return (none, some (handle, suffix))
  | _ => return (none, none)

def resolveTag : Option (Text × Text) → Reading (Option Text)
  | none => return none
  | some ([], suffix) => return some suffix
  | some (handle, suffix) => do
    match (← get).handles.lookup handle with
    | some meaning => return some (meaning ++ suffix)
    | none => throw .undefinedTagHandle

/-- Set an anchor: its number, and its place among the anchors set. -/
def setAnchor (name : Text) : Reading (Nat × Nat) := do
  let s ← get
  let number := s.anchors.length
  set { s with
    anchors := (name, number) :: s.anchors.filter (·.1 != name)
    set := s.set + 1 }
  return (number, s.set)

def noteAnchored (anchor : Option (Nat × Nat)) (node : Node) : Reading Unit :=
  match anchor with
  | none => return ()
  | some (number, order) =>
    modify fun s => { s with anchored := ⟨number, order, node⟩ :: s.anchored }

/-- The tag of a scalar that is written; a lone exclamation mark is none. -/
def scalarTag (tag : Option Text) : Option Text :=
  if tag == some ['!'] then none else tag

/-! ## Collections -/

/-- Whether a token ends an item of a block sequence that is left empty. -/
def endsItem : Token → Bool
  | .item | .blockEnd => true
  | _ => false

/-- Whether a token ends an item under a key that is left empty. -/
def endsKeyedItem : Token → Bool
  | .item | .key | .value | .blockEnd => true
  | _ => false

/-- Whether a token ends a key or a value of a block that is left empty. -/
def endsPart : Token → Bool
  | .key | .value | .blockEnd => true
  | _ => false

/-- Whether a token ends a value in a flow sequence that is left empty. -/
def endsFlowItem : Token → Bool
  | .comma | .flowSequenceEnd => true
  | _ => false

/-- Whether a token ends a value in a flow mapping that is left empty. -/
def endsFlowValue : Token → Bool
  | .comma | .flowMappingEnd => true
  | _ => false

/-- Skip the comma before a further part of a flow collection. -/
def separated (first : Bool) : Reading Unit := do
  unless first do
    match ← peek with
    | .comma => skip
    | _ => throw .unexpectedToken

mutual

/-- Read a node.  In a block it may be a block collection, and under a key also a
sequence without an indentation of its own.  Every two levels of `depth` take at
least one token. -/
def node (depth : Nat) (inBlock underKey : Bool) : Reading Node := do
  match depth with
  | 0 => throw .unexpectedToken
  | depth + 1 =>
    match ← peek with
    | .alias name => do
      skip
      count 1
      match (← get).anchors.lookup name with
      | some number => return .alias number
      | none => throw .unknownAlias
    | _ =>
      let (name, tag) ← properties
      let tag ← resolveTag tag
      let token ← peek
      let place ← name.mapM setAnchor
      let result ←
        match token with
        | .item => do
          if inBlock && underKey then
            count 2
            pure (.seq tag (← keyedItems depth))
          else if name.isSome || tag.isSome then
            count 1
            pure (.scalar tag true [])
          else
            throw .unexpectedToken
        | .scalar plain text => do
          skip
          count 1
          pure (.scalar (scalarTag tag) plain text)
        | .flowSequence => do
          skip
          count 2
          pure (.seq tag (← flowItems depth true))
        | .flowMapping => do
          skip
          count 2
          pure (.map tag (← flowEntries depth true))
        | .blockSequence => do
          if inBlock then
            skip
            count 2
            pure (.seq tag (← blockItems depth))
          else if name.isSome || tag.isSome then
            count 1
            pure (.scalar tag true [])
          else
            throw .unexpectedToken
        | .blockMapping => do
          if inBlock then
            skip
            count 2
            pure (.map tag (← blockEntries depth))
          else if name.isSome || tag.isSome then
            count 1
            pure (.scalar tag true [])
          else
            throw .unexpectedToken
        | _ => do
          if name.isSome || tag.isSome then
            count 1
            pure (.scalar tag true [])
          else
            throw .unexpectedToken
      noteAnchored place result
      return result

/-- Read the items of a block sequence to its end. -/
def blockItems (depth : Nat) : Reading (List Node) := do
  match depth with
  | 0 => throw .unexpectedToken
  | depth + 1 =>
    match ← peek with
    | .item => do
      skip
      let item ← if endsItem (← peek) then emptyScalar else node depth true false
      return item :: (← blockItems depth)
    | .blockEnd => do
      skip
      return []
    | _ => throw .unexpectedToken

/-- Read the items of a sequence that has no indentation of its own. -/
def keyedItems (depth : Nat) : Reading (List Node) := do
  match depth with
  | 0 => throw .unexpectedToken
  | depth + 1 =>
    match ← peek with
    | .item => do
      skip
      let item ← if endsKeyedItem (← peek) then emptyScalar else node depth true false
      return item :: (← keyedItems depth)
    | _ => return []

/-- Read the entries of a block mapping to its end. -/
def blockEntries (depth : Nat) : Reading (List (Node × Node)) := do
  match depth with
  | 0 => throw .unexpectedToken
  | depth + 1 =>
    match ← peek with
    | .key => do
      skip
      let key ← if endsPart (← peek) then emptyScalar else node depth true true
      let value ←
        match ← peek with
        | .value => do
          skip
          if endsPart (← peek) then emptyScalar else node depth true true
        | _ => emptyScalar
      return (key, value) :: (← blockEntries depth)
    | .blockEnd => do
      skip
      return []
    | _ => throw .unexpectedToken

/-- Read the items of a flow sequence to its end.  An item may be a single entry
of a mapping; where its key is left empty the token after the mark is passed
over. -/
def flowItems (depth : Nat) (first : Bool) : Reading (List Node) := do
  match depth with
  | 0 => throw .unexpectedToken
  | depth + 1 =>
    match ← peek with
    | .flowSequenceEnd => do
      skip
      return []
    | _ =>
      separated first
      match ← peek with
      | .key => do
        skip
        count 2
        let token ← peek
        let key ←
          if token == .value || endsFlowItem token then do
            skip
            emptyScalar
          else
            node depth false false
        let value ←
          match ← peek with
          | .value => do
            skip
            if endsFlowItem (← peek) then emptyScalar else node depth false false
          | _ => emptyScalar
        return .map none [(key, value)] :: (← flowItems depth false)
      | .flowSequenceEnd => do
        skip
        return []
      | _ => do
        let item ← node depth false false
        return item :: (← flowItems depth false)

/-- Read the entries of a flow mapping to its end. -/
def flowEntries (depth : Nat) (first : Bool) : Reading (List (Node × Node)) := do
  match depth with
  | 0 => throw .unexpectedToken
  | depth + 1 =>
    match ← peek with
    | .flowMappingEnd => do
      skip
      return []
    | _ =>
      separated first
      match ← peek with
      | .key => do
        skip
        let token ← peek
        let key ←
          if token == .value || endsFlowValue token then emptyScalar else node depth false false
        let value ←
          match ← peek with
          | .value => do
            skip
            if endsFlowValue (← peek) then emptyScalar else node depth false false
          | _ => emptyScalar
        return (key, value) :: (← flowEntries depth false)
      | .flowMappingEnd => do
        skip
        return []
      | _ => do
        let key ← node depth false false
        let value ← emptyScalar
        return (key, value) :: (← flowEntries depth false)

end

/-! ## Documents -/

/-- The handles that need no directive. -/
def defaultHandles : List (Text × Text) :=
  [("!", "!"), ("!!", "tag:yaml.org,2002:")]

/-- Read directives: at most one for the version, and one for each handle. -/
def directives (versioned : Bool) (handles : List (Text × Text)) :
    List Token → Except ReadError (List (Text × Text) × List Token)
  | .version major minor :: rest =>
    if versioned || major != 1 || (minor != 1 && minor != 2) then .error .badDirective
    else directives true handles rest
  | .tagDirective handle meaning :: rest =>
    if (handles.lookup handle).isSome then .error .badDirective
    else directives versioned ((handle, meaning) :: handles) rest
  | tokens => .ok (handles ++ defaultHandles, tokens)

/-- Whether a document that has started ends without content. -/
def endsDocument : Token → Bool
  | .version _ _ | .tagDirective _ _ | .documentStart | .documentEnd | .streamEnd => true
  | _ => false

/-- Read the only document of a text. -/
def reading (depth : Nat) : Reading Node := do
  let s ← get
  match s.tokens with
  | [.streamEnd] => return .empty
  | tokens =>
    let (handles, rest) ← directives false [] tokens
    set { s with tokens := rest, handles := handles }
    let started := rest.head? == some .documentStart
    if started then skip
    else if rest.length < tokens.length then throw .unexpectedToken
    let root ← if started && endsDocument (← peek) then emptyScalar else node depth true false
    match (← get).tokens.dropWhile (· == .documentEnd) with
    | [.streamEnd] => return root
    | _ => throw .severalDocuments

/-- The document that tokens form. -/
def ofTokens (tokens : List Token) : Except ReadError Document := do
  let (root, s) ← (reading (2 * tokens.length + 2)).run { tokens := tokens }
  return ⟨root, s.anchored, s.events⟩

/-- The node that an alias stands for. -/
def target? (d : Document) (anchor : Nat) : Option Node :=
  let candidates := d.anchored.filter (·.anchor == anchor)
  candidates.foldl (fun best a => match best with
    | none => some a
    | some b => if b.order < a.order then some a else some b) none |>.map (·.node)

end Document

end Yaml

end DevSpecs
