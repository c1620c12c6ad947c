import DevSpecs.Toml.Value

/-!
# Tables under construction

A document is read line by line into tables that may still change.  What may be
added to a table depends on how it came about:

* a table that a header has named is complete but for the lines below the header
  and for headers of tables in it;
* one that exists because a header named a table in it may be named once;
* one that exists because of a dotted key takes more dotted keys;
* a value is closed.
-/

namespace DevSpecs

namespace Toml

/-- How a table came about. -/
inductive Origin where
  | header
  | implied
  | dotted
  deriving DecidableEq, Repr

/-- What stands under a key while a document is read. -/
inductive Draft where
  | value (v : Toml)
  | table (origin : Origin) (entries : List (Text × Draft))
  /-- The tables of an array that headers add to, the last one first. -/
  | tables (rows : List (List (Text × Draft)))

namespace Draft

abbrev Drafts := List (Text × Draft)

/-- Change what stands under a key; a new key is added at the end. -/
def update (change : Option Draft → Option Draft) (key : Text) : Drafts → Option Drafts
  | [] => (change none).map fun draft => [(key, draft)]
  | (k, draft) :: rest =>
    if k = key then (change (some draft)).map fun draft => (k, draft) :: rest
    else (update change key rest).map ((k, draft) :: ·)

/-! ## Values -/

/-- Put a value under a dotted key. -/
def put (value : Toml) : List Text → Drafts → Option Drafts
  | [], _ => none
  | [key], drafts =>
    update (fun
      | none => some (.value value)
      | some _ => none) key drafts
  | key :: path, drafts =>
    update (fun
      | none => (put value path []).map (.table .dotted)
      | some (.table .dotted inner) => (put value path inner).map (.table .dotted)
      | some _ => none) key drafts

/-! ## Headers -/

/-- Change the table that a header leads to; of an array this is the last one. -/
def within (change : Drafts → Option Drafts) : List Text → Drafts → Option Drafts
  | [], drafts => change drafts
  | key :: path, drafts =>
    update (fun
      | none => (within change path []).map (.table .implied)
      | some (.table origin inner) => (within change path inner).map (.table origin)
      | some (.tables (last :: before)) =>
        (within change path last).map fun last => .tables (last :: before)
      | some _ => none) key drafts

def startTable (path : List Text) (drafts : Drafts) : Option Drafts := do
  let key ← path.getLast?
  within (update (fun
    | none => some (.table .header [])
    | some (.table .implied inner) => some (.table .header inner)
    | some _ => none) key) path.dropLast drafts

/-- Start another table of the array of a header. -/
def startRow (path : List Text) (drafts : Drafts) : Option Drafts := do
  let key ← path.getLast?
  within (update (fun
    | none => some (.tables [[]])
    | some (.tables rows) => some (.tables ([] :: rows))
    | some _ => none) key) path.dropLast drafts

/-! ## Completion -/

mutual

def toValue : Draft → Toml
  | value v => v
  | table _ drafts => .table (toEntries drafts)
  | tables rows => .arr (toTables rows).reverse
termination_by structural draft => draft

def toEntries : List (Text × Draft) → List (Text × Toml)
  | [] => []
  | entry :: drafts => toEntry entry :: toEntries drafts
termination_by structural drafts => drafts

def toEntry : Text × Draft → Text × Toml
  | (key, draft) => (key, toValue draft)
termination_by structural entry => entry

def toTables : List (List (Text × Draft)) → List Toml
  | [] => []
  | row :: rows => .table (toEntries row) :: toTables rows
termination_by structural rows => rows

end

end Draft

end Toml

end DevSpecs
