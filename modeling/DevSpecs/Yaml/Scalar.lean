import DevSpecs.Yaml.Value

/-!
# Plain scalars

A text written without quotes stands for null, a truth value, a number or
itself.  Integers may be written with the radix marks `0x`, `0o` and `0b`.  A
run of digits with needless zeros in front is a text.  An integer must fit into
64 bits; one that only fits into 128 bits is no value at all, and a still larger
decimal is a floating-point number.

In the other direction this file gives the text of a number.
-/

namespace DevSpecs

namespace Yaml

/-! ## Words -/

def isNullWord (t : Text) : Bool :=
  t == "null" || t == "Null" || t == "NULL" || t == "~"

def boolOf? (t : Text) : Option Bool :=
  if t == "true" || t == "True" || t == "TRUE" then some true
  else if t == "false" || t == "False" || t == "FALSE" then some false
  else none

/-! ## Integers -/

/-- The value of a digit in any radix up to 36. -/
def digitValue? (c : Char) : Option Nat :=
  if c.isDigit then some (c.toNat - '0'.toNat)
  else if c.isAlpha then some (c.toLower.toNat - 'a'.toNat + 10)
  else none

/-- The natural number that a nonempty run of digits denotes. -/
def naturalOf? (radix : Nat) : Text → Option Nat
  | [] => none
  | digits => digits.foldlM (fun n c => do
      let d ← digitValue? c
      guard (d < radix)
      return n * radix + d) 0

/-- The text after a single plus sign, or the text itself. -/
def withoutPlus (t : Text) : Text :=
  (Text.dropStart? ['+'] t).getD t

/-- The text after a single sign, or the text itself. -/
def withoutSign : Text → Text
  | '+' :: t => t
  | '-' :: t => t
  | t => t

/-- Whether a text is a run of digits, perhaps after a sign, that has a needless
zero in front. -/
def hasLeadingZero (t : Text) : Bool :=
  match withoutSign t with
  | '0' :: d :: rest => (d :: rest).all Char.isDigit
  | _ => false

/-- The magnitude of an integer whose sign has been taken off. -/
def magnitudeOf? (t : Text) : Option Nat :=
  match t with
  | '0' :: 'x' :: digits => naturalOf? 16 digits
  | '0' :: 'o' :: digits => naturalOf? 8 digits
  | '0' :: 'b' :: digits => naturalOf? 2 digits
  | digits => if hasLeadingZero digits then none else naturalOf? 10 digits

/-- The integer that a text denotes, of any size. -/
def integerOf? : Text → Option Int
  | '-' :: t => (magnitudeOf? t).map fun n => -(n : Int)
  | t => (magnitudeOf? (withoutPlus t)).map Int.ofNat

/-- Whether an integer fits into so many bits, with or without a sign. -/
def fitsInto (bits : Nat) : Int → Bool
  | .ofNat n => n < Nat.pow 2 bits
  | .negSucc n => n < Nat.pow 2 (bits - 1)

/-! ## Floating-point numbers -/

/-- An exponent: digits, perhaps after a sign. -/
def exponentOf? : Text → Option Int
  | '-' :: t => (naturalOf? 10 t).map fun n => -(n : Int)
  | t => (naturalOf? 10 (withoutPlus t)).map Int.ofNat

/-- The number that an unsigned decimal denotes. -/
def decimalOf? (negative : Bool) (t : Text) : Option Binary64 := do
  let whole := t.takeWhile Char.isDigit
  let rest := t.dropWhile Char.isDigit
  let (part, rest) :=
    match rest with
    | '.' :: rest => (rest.takeWhile Char.isDigit, rest.dropWhile Char.isDigit)
    | rest => ([], rest)
  let exponent ←
    match rest with
    | [] => some 0
    | mark :: rest => if mark == 'e' || mark == 'E' then exponentOf? rest else none
  let digits ← naturalOf? 10 (whole ++ part)
  return Binary64.ofDecimal negative digits (exponent - part.length)

/-- The words for an infinite number, without a sign. -/
def isInfinityWord (t : Text) : Bool :=
  t == ".inf" || t == ".Inf" || t == ".INF"

/-- The floating-point number that a text denotes.  A decimal out of range
denotes none. -/
def floatOf? (t : Text) : Option Binary64 :=
  if t == ".nan" || t == ".NaN" || t == ".NAN" then some .nan
  else
    let (negative, unsigned) :=
      match t with
      | '-' :: t => (true, t)
      | t => (false, withoutPlus t)
    if isInfinityWord unsigned then some (.infinite negative)
    else
      match decimalOf? negative unsigned with
      | some (.finite negative significand exponent) =>
        some (.finite negative significand exponent)
      | _ => none

/-! ## Scalars -/

/-- The value of a text written without quotes, if it is one. -/
def ofPlain? (t : Text) : Option Yaml :=
  if t.isEmpty || isNullWord t then some null
  else
    match boolOf? t, integerOf? t with
    | some b, _ => some (bool b)
    | none, some i =>
      if fitsInto 64 i then some (int i)
      else if fitsInto 128 i then none
      else some (((floatOf? t).map float).getD (str t))
    | none, none =>
      if hasLeadingZero t then some (str t) else some (((floatOf? t).map float).getD (str t))

/-- Whether a text that is written without quotes stands for itself. -/
def standsForItself (t : Text) : Bool :=
  !hasLeadingZero t && (ofPlain? t).any (· == str t)

/-! ## The text of a number -/

/-- A positive decimal is written positionally as long as its point lies at most
five places before or sixteen places after its first digit, and with an exponent
otherwise. -/
def decimalText (digits : Text) (point : Int) : Text :=
  let length : Int := digits.length
  if length ≤ point && point ≤ 16 then
    digits ++ List.replicate (point - length).toNat '0' ++ ".0"
  else if 0 < point && point ≤ 16 then
    digits.take point.toNat ++ '.' :: digits.drop point.toNat
  else if -5 < point && point ≤ 0 then
    "0." ++ List.replicate (-point).toNat '0' ++ digits
  else
    let leading := digits.take 1 ++ if digits.length ≤ 1 then [] else '.' :: digits.drop 1
    leading ++ 'e' :: Text.ofInt (point - 1)

def floatText : Binary64 → Text
  | .nan => ".nan"
  | .infinite negative => if negative then "-.inf" else ".inf"
  | .finite negative significand exponent =>
    let sign : Text := if negative then ['-'] else []
    if significand = 0 then sign ++ "0.0"
    else
      let (digits, point) := Binary64.decimalDigits significand exponent
      sign ++ decimalText digits point

end Yaml

end DevSpecs
