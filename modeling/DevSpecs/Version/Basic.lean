import DevSpecs.Text.Basic

/-!
# Versions

A version is a text of ASCII letters, digits and the separators `.`, `-`, `_`
with at least one letter or digit.  Its segments are the maximal runs of digits
and of letters.  Versions are compared by their segments, lexicographically, a
proper prefix being smaller:

* a run of letters is below every number and compares without regard to case;
* a run of digits compares as a natural number;
* the names of branches are above every number.

Versions that differ in separators, letter case or leading zeros are therefore
equal although their texts are not.
-/

namespace DevSpecs

/-- Names of branches, from the lowest to the highest. -/
inductive Branch where
  | stable
  | trunk
  | head
  | master
  | main
  | develop
  deriving DecidableEq, Ord, Repr

namespace Branch

def all : List Branch :=
  [stable, trunk, head, master, main, develop]

def name : Branch → Text
  | stable => "stable"
  | trunk => "trunk"
  | head => "head"
  | master => "master"
  | main => "main"
  | develop => "develop"

def ofName? (t : Text) : Option Branch :=
  all.find? (·.name = t)

end Branch

/-- A segment of a version.  The derived order has words lowest and branches
highest. -/
inductive Segment where
  | word (letters : Text)
  | number (value : Nat)
  | branch (name : Branch)
  deriving DecidableEq, Ord, Repr

namespace Segment

/-- The segment that a run of digits or of letters stands for. -/
def ofRun (run : Text) : Segment :=
  if run.all Char.isDigit then
    number (Nat.ofDigitChars 10 run 0)
  else
    let letters := run.map Char.toLower
    match Branch.ofName? letters with
    | some b => branch b
    | none => word letters

/-- The canonical spelling of a segment. -/
def text : Segment → Text
  | word letters => letters
  | number value => Text.ofNat value
  | branch b => b.name

instance : Hashable Segment :=
  ⟨fun s => hash (String.ofList s.text)⟩

end Segment

/-- A text that names a version. -/
structure Version where
  text : Text
  allowed : text.all (fun c => Text.isAlphanumeric c || ".-_".toList.contains c) = true
  nonempty : text.any Text.isAlphanumeric = true
  deriving Repr

namespace Version

/-- The characters that separate segments. -/
def isSeparator (c : Char) : Bool :=
  ".-_".toList.contains c

/-- The maximal runs of digits and of other characters in a text without
separators. -/
def runsOf (field : Text) : List Text :=
  field.splitBy fun a b => a.isDigit == b.isDigit

/-- The segments written in a text. -/
def segmentsOf (t : Text) : List Segment :=
  ((t.splitOnP isSeparator).flatMap runsOf).map Segment.ofRun

/-- Read a version, or nothing when the text names none. -/
def ofText? (t : Text) : Option Version :=
  if allowed : t.all (fun c => Text.isAlphanumeric c || ".-_".toList.contains c) = true then
    if nonempty : t.any Text.isAlphanumeric = true then
      some ⟨t, allowed, nonempty⟩
    else
      none
  else
    none

def segments (v : Version) : List Segment :=
  segmentsOf v.text

/-- The segments in canonical spelling, joined by dots. -/
def canonicalText (v : Version) : Text :=
  ['.'].intercalate (v.segments.map Segment.text)

/-! ## Order -/

instance : Ord Version :=
  ⟨fun a b => compare a.segments b.segments⟩

/-- Versions are equal when their segments are. -/
instance : BEq Version :=
  ⟨fun a b => a.segments == b.segments⟩

instance : Hashable Version :=
  ⟨fun v => hash v.segments⟩

instance : LE Version := leOfOrd

instance : LT Version := ltOfOrd

end Version

end DevSpecs
