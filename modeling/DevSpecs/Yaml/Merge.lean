import DevSpecs.Yaml.Value

/-!
# Merging mappings

Merging a mapping into another one overrides it key by key: where both have a
mapping under a key, those are merged in turn, and everywhere else the new value
replaces the old one.  A tagged mapping counts as a value like any other.  Keys
keep their places, and new ones are added at the end.
-/

namespace DevSpecs

namespace Yaml

mutual

/-- The value of a key that gets a new value where it may have had an old one. -/
def overlay : Yaml → Option Yaml → Yaml
  | map new, some (map old) => map (mergeAll new old)
  | new, _ => new
termination_by structural new => new

/-- Merge entries into a mapping, one after another. -/
def mergeAll : List (Yaml × Yaml) → Entries → Entries
  | [], mapping => mapping
  | entry :: rest, mapping => mergeAll rest (mergeEntry entry mapping)
termination_by structural new => new

/-- Merge one entry into a mapping. -/
def mergeEntry : Yaml × Yaml → Entries → Entries
  | (key, value), mapping => mapping.put key (overlay value (mapping.get? key))
termination_by structural new => new

end

namespace Entries

/-- The mapping `old` overridden by `new`. -/
def merge (old new : Entries) : Entries :=
  mergeAll new old

end Entries

end Yaml

end DevSpecs
