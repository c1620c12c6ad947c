import DevSpecs.Toml.Value

/-!
# Scalars without quotes

A scalar that is not quoted is a Boolean, a number or a time.  Digits may be
grouped by single underscores, and a decimal number starts with zero only if it
has no other digit in front of its point.  A time is a date, a time of day, or
both with an optional offset; dates are those of the calendar.
-/

namespace DevSpecs

namespace Toml

/-! ## Numbers -/

/-- Whether a text consists of groups of digits with underscores in between. -/
def areDigits (isDigit : Char → Bool) (t : Text) : Bool :=
  (t.splitOn '_').all fun group => !group.isEmpty && group.all isDigit

/-- The text without a sign at its start. -/
def unsigned : Text → Text
  | '+' :: t => t
  | '-' :: t => t
  | t => t

/-- Whether a text is a decimal number without sign, point and exponent. -/
def isWhole (t : Text) : Bool :=
  areDigits Char.isDigit t && (t.length == 1 || t.head? != some '0')

/-- Whether a text is an integer to the base 16, 8 or 2. -/
def isPrefixed : Text → Bool
  | '0' :: 'x' :: t => areDigits (fun c => (Text.hexDigit? c).isSome) t
  | '0' :: 'o' :: t => areDigits (fun c => '0' ≤ c && c ≤ '7') t
  | '0' :: 'b' :: t => areDigits (fun c => c == '0' || c == '1') t
  | _ => false

/-- Whether a text is a number with an optional point followed by digits. -/
def isMantissa (t : Text) : Bool :=
  match Text.cutAt '.' t with
  | some (whole, part) => isWhole whole && areDigits Char.isDigit part
  | none => isWhole t

/-- Whether a text is a decimal number without sign. -/
def isDecimal (t : Text) : Bool :=
  let isExponentMark (c : Char) : Bool := c == 'e' || c == 'E'
  match t.dropWhile (!isExponentMark ·) with
  | [] => isMantissa t
  | _ :: exponent =>
    isMantissa (t.takeWhile (!isExponentMark ·)) && areDigits Char.isDigit (unsigned exponent)

def isNumber (t : Text) : Bool :=
  let size := unsigned t
  isPrefixed t || isDecimal size || size == "inf".toList || size == "nan".toList

/-! ## Times -/

/-- The value of a text of exactly so many digits. -/
def fixedDigits? (count : Nat) (t : Text) : Option Nat :=
  if t.length = count && t.all Char.isDigit then some (Nat.ofDigitChars 10 t 0) else none

/-- Whether a text is a number of two digits within bounds. -/
def isWithin (low high : Nat) (t : Text) : Bool :=
  (fixedDigits? 2 t).any fun n => low ≤ n && n ≤ high

def daysIn (year month : Nat) : Nat :=
  if month = 2 then
    if year % 4 = 0 && (year % 100 != 0 || year % 400 = 0) then 29 else 28
  else if [4, 6, 9, 11].contains month then 30
  else 31

def isDate (t : Text) : Bool :=
  match t.splitOn '-' with
  | [year, month, day] =>
    match fixedDigits? 4 year, fixedDigits? 2 month with
    | some y, some m => 1 ≤ m && m ≤ 12 && isWithin 1 (daysIn y m) day
    | _, _ => false
  | _ => false

/-- Whether a text is the seconds of a time of day, with an optional fraction. -/
def isSeconds (t : Text) : Bool :=
  match Text.cutAt '.' t with
  | some (whole, part) => isWithin 0 60 whole && !part.isEmpty && part.all Char.isDigit
  | none => isWithin 0 60 t

/-- Whether a text is a time of day; the seconds may be missing. -/
def isTimeOfDay (t : Text) : Bool :=
  match t.splitOn ':' with
  | [hour, minute] => isWithin 0 23 hour && isWithin 0 59 minute
  | [hour, minute, seconds] => isWithin 0 23 hour && isWithin 0 59 minute && isSeconds seconds
  | _ => false

/-- Whether a text is an offset from the time at the prime meridian. -/
def isOffset : Text → Bool
  | [c] => c == 'Z' || c == 'z'
  | sign :: t =>
    (sign == '+' || sign == '-') &&
      match t.splitOn ':' with
      | [hour, minute] => isWithin 0 23 hour && isWithin 0 59 minute
      | _ => false
  | [] => false

/-- Whether a text is a time of day with an optional offset. -/
def isOffsetTime (t : Text) : Bool :=
  let isClock (c : Char) : Bool := c.isDigit || c == ':' || c == '.'
  let offset := t.dropWhile isClock
  isTimeOfDay (t.takeWhile isClock) && (offset.isEmpty || isOffset offset)

/-- Whether a text is a date and a time of day. -/
def isMoment (t : Text) : Bool :=
  match t.drop 10 with
  | c :: clock => isDate (t.take 10) && (c == 'T' || c == 't' || c == ' ') && isOffsetTime clock
  | [] => false

def isTime (t : Text) : Bool :=
  isDate t || isTimeOfDay t || isMoment t

/-! ## Scalars -/

/-- The value of a scalar without quotes. -/
def ofScalar? (t : Text) : Option Toml :=
  if t == "true".toList then some (bool true)
  else if t == "false".toList then some (bool false)
  else if isNumber t then some (number t)
  else if isTime t then some (time t)
  else none

/-- The characters of scalars without quotes. -/
def isScalarChar (c : Char) : Bool :=
  Text.isAlphanumeric c || "+-_.:".toList.contains c

/-- Read a scalar without quotes.  A blank may stand between a date and a time. -/
def scalar? (t : Text) : Option (Toml × Text) := do
  let first := t.takeWhile isScalarChar
  let rest := t.dropWhile isScalarChar
  let (written, rest) :=
    match rest with
    | ' ' :: c :: rest =>
      if isDate first && c.isDigit then
        (first ++ ' ' :: c :: rest.takeWhile isScalarChar, rest.dropWhile isScalarChar)
      else (first, ' ' :: c :: rest)
    | rest => (first, rest)
  return (← ofScalar? written, rest)

end Toml

end DevSpecs
