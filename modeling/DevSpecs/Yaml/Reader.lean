import DevSpecs.Yaml.Node
import DevSpecs.Yaml.Token.Lexer

/-!
# Reading a value

A text holds one document.  Its scalars are understood by their tags, or as
plain scalars, or as texts; aliases are replaced by the values they stand for.
Collections may be nested to a depth of 128, and the number of aliases that are
followed may be a hundred times the number of events of the document.
-/

namespace DevSpecs

namespace Yaml

def maxDepth : Nat := 128

/-- How many aliases may be followed for each event of a document. -/
def aliasesPerEvent : Nat := 100

/-- A computation that follows aliases; the state says how many more it may. -/
abbrev Following := StateT Nat (Except ReadError)

/-- The value of a scalar without a tag. -/
def untaggedScalar (plain : Bool) (t : Text) : Except ReadError Yaml :=
  if plain then
    match ofPlain? t with
    | some value => .ok value
    | none => .error .badScalar
  else .ok (str t)

/-- The value of a scalar with a tag for a kind of scalars. -/
def kindScalar (kind t : Text) : Except ReadError Yaml :=
  let ofOption (value : Option Yaml) : Except ReadError Yaml :=
    match value with
    | some value => .ok value
    | none => .error .badScalar
  if kind == "bool" then ofOption ((boolOf? t).map bool)
  else if kind == "int" then
    ofOption ((integerOf? t).bind fun i => if fitsInto 64 i then some (int i) else none)
  else if kind == "float" then ofOption ((floatOf? t).map float)
  else if kind == "null" then ofOption (if isNullWord t then some null else none)
  else .ok (str t)

/-- The name in a tag that a value keeps. -/
def keptTag? : Option Text → Option Text
  | some ['!'] => some ['!']
  | some ('!' :: name) => some name
  | _ => none

def scalarValue (tag : Option Text) (plain : Bool) (t : Text) : Except ReadError Yaml :=
  match keptTag? tag with
  | some name => (untaggedScalar plain t).map (tagged name)
  | none =>
    match tag with
    | none => untaggedScalar plain t
    | some tag =>
      match Text.dropStart? "tag:yaml.org,2002:" tag with
      | some kind => kindScalar kind t
      | none => .ok (str t)

/-- Put the name in a tag, if there is one, on a value. -/
def withTag (tag : Option Text) (value : Yaml) : Yaml :=
  match keptTag? tag with
  | some name => tagged name value
  | none => value

/-- The node an alias stands for, or the node itself. -/
def follow (d : Document) : Node → Following Node
  | .alias anchor => do
    match ← get, d.target? anchor with
    | left + 1, some node => do
      set left
      return node
    | 0, _ => throw .tooManyAliases
    | _, none => throw .unknownAlias
  | node => return node

/-- A mapping of distinct keys. -/
def distinctEntries (mapping : Entries) : List (Yaml × Yaml) → Except ReadError Entries
  | [] => .ok mapping
  | (key, value) :: rest =>
    if mapping.hasKey key then .error .duplicateKey
    else distinctEntries (mapping ++ [(key, value)]) rest

/-- The value of a node that is no alias, whose collections are nested no deeper
than `depth`. -/
def valueOf (d : Document) : Nat → Node → Following Yaml
  | 0, node => do
    match ← follow d node with
    | .scalar tag plain t => liftExcept (scalarValue tag plain t)
    | .alias _ => throw .unknownAlias
    | .seq .. | .map .. => throw .tooDeep
  | depth + 1, node => do
    match ← follow d node with
    | .scalar tag plain t => liftExcept (scalarValue tag plain t)
    | .alias _ => throw .unknownAlias
    | .seq tag items => do
      return withTag tag (.seq (← items.mapM fun item => valueOf d depth item))
    | .map tag entries => do
      let entries ← entries.mapM fun entry => do
        return (← valueOf d depth entry.1, ← valueOf d depth entry.2)
      return withTag tag (.map (← liftExcept (distinctEntries [] entries)))
where
  liftExcept {α : Type} (r : Except ReadError α) : Following α := fun left => r.map (·, left)

def parse (t : Text) : Except ReadError Yaml := do
  let d ← Document.ofTokens (← tokensOf t)
  let (value, _) ← (valueOf d maxDepth d.root).run (aliasesPerEvent * d.events)
  return value

end Yaml

end DevSpecs
