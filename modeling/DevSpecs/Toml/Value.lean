import DevSpecs.Text.Basic

/-!
# TOML values

A table is a list of entries with distinct keys.  Numbers and times are kept as
they are written.
-/

namespace DevSpecs

inductive Toml where
  | str (t : Text)
  | bool (b : Bool)
  | number (written : Text)
  | time (written : Text)
  | arr (items : List Toml)
  | table (entries : List (Text × Toml))
  deriving Repr

namespace Toml

instance : Inhabited Toml := ⟨bool false⟩

abbrev Entries := List (Text × Toml)

def asText? : Toml → Option Text
  | str t => some t
  | _ => none

def asItems? : Toml → Option (List Toml)
  | arr items => some items
  | _ => none

/-- Whether the value is an array or a table that holds nothing. -/
def isEmpty : Toml → Bool
  | arr items => items.isEmpty
  | table entries => entries.isEmpty
  | _ => false

end Toml

end DevSpecs
