import DevSpecs.Number.Binary64

/-!
# YAML values

A mapping is a list of entries in the order of insertion, and a key stands in it
once.  Keys may be any values.  Two mappings are the same when they have the
same entries in any order.

A tagged value is a value with a name attached to it.  What a value is can be
asked in two ways: of the value itself, by matching on its constructor, and of
what remains when the tags around it are removed, by `untagged`.
-/

namespace DevSpecs

inductive Yaml where
  | null
  | bool (b : Bool)
  | int (i : Int)
  | float (x : Binary64)
  | str (t : Text)
  | seq (items : List Yaml)
  | map (entries : List (Yaml × Yaml))
  /-- The tag is kept without its exclamation mark. -/
  | tagged (tag : Text) (value : Yaml)
  deriving Repr

namespace Yaml

instance : Inhabited Yaml := ⟨null⟩

/-! ## Equality -/

mutual

def same : Yaml → Yaml → Bool
  | null, null => true
  | bool a, bool b => a == b
  | int a, int b => a == b
  | float a, float b => a.same b
  | str a, str b => a == b
  | seq as, seq bs => sameItems as bs
  | map as, map bs => allIn as bs && bs.all (isIn as)
  | tagged s a, tagged t b => s == t && same a b
  | _, _ => false
termination_by structural v => v

/-- Whether two lists have the same items in the same order. -/
def sameItems : List Yaml → List Yaml → Bool
  | [], [] => true
  | a :: as, b :: bs => same a b && sameItems as bs
  | _, _ => false
termination_by structural vs => vs

/-- Whether every entry of the first list is in the second. -/
def allIn : List (Yaml × Yaml) → List (Yaml × Yaml) → Bool
  | [], _ => true
  | a :: as, bs => bs.any (sameEntry a) && allIn as bs
termination_by structural es => es

/-- Whether an entry is in the list. -/
def isIn : List (Yaml × Yaml) → Yaml × Yaml → Bool
  | [], _ => false
  | a :: as, b => sameEntry a b || isIn as b
termination_by structural es => es

def sameEntry : Yaml × Yaml → Yaml × Yaml → Bool
  | (k, v), b => same k b.1 && same v b.2
termination_by structural e => e

end

instance : BEq Yaml := ⟨same⟩

/-! ## Mappings -/

abbrev Entries := List (Yaml × Yaml)

namespace Entries

def get? (entries : Entries) (key : Yaml) : Option Yaml :=
  (entries.find? (·.1 == key)).map Prod.snd

def hasKey (entries : Entries) (key : Yaml) : Bool :=
  entries.any (·.1 == key)

/-- Give a key a value: in its place when it is there, otherwise at the end. -/
def put : Entries → Yaml → Yaml → Entries
  | [], key, value => [(key, value)]
  | entry :: rest, key, value =>
    if entry.1 == key then (entry.1, value) :: rest else entry :: put rest key value

/-- The mapping that results from putting entries one after another. -/
def ofList (entries : List (Yaml × Yaml)) : Entries :=
  entries.foldl (fun mapping entry => put mapping entry.1 entry.2) []

end Entries

/-! ## Views -/

/-- The value without the tags around it. -/
def untagged : Yaml → Yaml
  | tagged _ value => untagged value
  | value => value

/-- The entries, if the value is a mapping under any tags. -/
def asEntries? (v : Yaml) : Option Entries :=
  match v.untagged with
  | map entries => some entries
  | _ => none

/-- The items, if the value is a sequence under any tags. -/
def asItems? (v : Yaml) : Option (List Yaml) :=
  match v.untagged with
  | seq items => some items
  | _ => none

/-- The text, if the value is one under any tags. -/
def asText? (v : Yaml) : Option Text :=
  match v.untagged with
  | str t => some t
  | _ => none

/-- The value of a key in a mapping under any tags. -/
def get? (v : Yaml) (key : Text) : Option Yaml :=
  v.asEntries?.bind (Entries.get? · (str key))

/-- How a tag is written. -/
def tagText (tag : Text) : Text :=
  '!' :: tag

end Yaml

end DevSpecs
