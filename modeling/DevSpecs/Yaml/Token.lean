import DevSpecs.Yaml.Cursor

/-!
# Tokens

The tokens of a document.  Blocks, which a text marks by indentation, have tokens
for their start and their end, and so have the keys of their mappings.
-/

namespace DevSpecs

namespace Yaml

inductive Token where
  | version (major minor : Nat)
  | tagDirective (handle meaning : Text)
  | documentStart
  | documentEnd
  | streamEnd
  | blockSequence
  | blockMapping
  | blockEnd
  | flowSequence
  | flowSequenceEnd
  | flowMapping
  | flowMappingEnd
  | comma
  /-- The dash before an item. -/
  | item
  /-- The place before a key. -/
  | key
  /-- The colon before a value. -/
  | value
  | anchor (name : Text)
  | alias (name : Text)
  | tag (handle suffix : Text)
  | scalar (plain : Bool) (text : Text)
  deriving DecidableEq, Repr

end Yaml

end DevSpecs
