import DevSpecs.Text.Basic

/-!
# JSON values

The members of an object are kept in the order written, repeated ones included.
A string may hold half of a surrogate pair, and then is no text.
-/

namespace DevSpecs

inductive Json where
  | null
  | bool (b : Bool)
  /-- A number as it is written. -/
  | num (written : Text)
  /-- A string, if it is a text. -/
  | str (t : Option Text)
  | arr (items : List Json)
  | obj (members : List (Option Text × Json))
  deriving Repr

namespace Json

instance : Inhabited Json := ⟨null⟩

def text (t : Text) : Json :=
  str (some t)

def nat (n : Nat) : Json :=
  num (Text.ofNat n)

/-- The text of a string, or nothing for null. -/
def textOrNull : Option Text → Json
  | some t => text t
  | none => null

/-- An object with members of distinct names. -/
def object (members : List (Text × Json)) : Json :=
  obj (members.map fun member => (some member.1, member.2))

end Json

end DevSpecs
