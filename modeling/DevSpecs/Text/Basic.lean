/-!
# Texts

A text is a list of characters, so that every rule about a text is stated by
recursion on it.  This file fixes the blank characters, the characters of
identifiers, and the few ways of cutting a text that the rest of the library
uses: trimming, words, and a cut at the first separator.
-/

namespace DevSpecs

/-- A text is a list of characters. -/
abbrev Text := List Char

instance : Coe String Text := ⟨String.toList⟩

namespace Text

/-! ## Character classes -/

/-- The characters with the Unicode property `White_Space`. -/
def isBlank (c : Char) : Bool :=
  let n := c.toNat
  (9 ≤ n && n ≤ 13) || n == 0x20 || n == 0x85 || n == 0xA0 || n == 0x1680 ||
    (0x2000 ≤ n && n ≤ 0x200A) || n == 0x2028 || n == 0x2029 || n == 0x202F ||
    n == 0x205F || n == 0x3000

/-- ASCII letters and digits. -/
def isAlphanumeric (c : Char) : Bool :=
  c.isAlpha || c.isDigit

/-- The value of a hexadecimal digit. -/
def hexDigit? (c : Char) : Option Nat :=
  if c.isDigit then some (c.toNat - '0'.toNat)
  else if 'a' ≤ c && c ≤ 'f' then some (c.toNat - 'a'.toNat + 10)
  else if 'A' ≤ c && c ≤ 'F' then some (c.toNat - 'A'.toNat + 10)
  else none

/-! ## Trimming and words -/

def trimStart (t : Text) : Text :=
  t.dropWhile isBlank

def trimEnd (t : Text) : Text :=
  (t.reverse.dropWhile isBlank).reverse

def trim (t : Text) : Text :=
  trimEnd (trimStart t)

/-- The maximal runs of characters that are not blank, in order. -/
def words (t : Text) : List Text :=
  (t.splitOnP isBlank).filter (!·.isEmpty)

/-- The words joined by single spaces. -/
def unwords (ws : List Text) : Text :=
  [' '].intercalate ws

/-! ## Cutting -/

/-- The parts before and after the first `c`, if there is one. -/
def cutAt (c : Char) (t : Text) : Option (Text × Text) :=
  match t.dropWhile (· != c) with
  | [] => none
  | _ :: rest => some (t.takeWhile (· != c), rest)

/-- What follows `start`, if the text starts with it. -/
def dropStart? : Text → Text → Option Text
  | [], t => some t
  | _ :: _, [] => none
  | c :: start, d :: t => if c = d then dropStart? start t else none

/-- What comes before `ending`, if the text ends with it. -/
def dropEnd? (ending t : Text) : Option Text :=
  (dropStart? ending.reverse t.reverse).map List.reverse

/-- Decimal digits of a natural number. -/
def ofNat (n : Nat) : Text :=
  Nat.toDigits 10 n

/-- Decimal digits of an integer, after a minus sign when it is negative. -/
def ofInt : Int → Text
  | .ofNat n => ofNat n
  | .negSucc n => '-' :: ofNat (n + 1)

end Text

end DevSpecs
