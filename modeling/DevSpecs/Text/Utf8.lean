import DevSpecs.Text.Basic

/-!
# Bytes and text

Programs write bytes.  They are read as text in UTF-8, either strictly, where the
first bytes that belong to no character are reported, or leniently, where every
maximal run of bytes that starts a character without ending it, and every byte
that starts none, becomes a replacement character.
-/

namespace DevSpecs

namespace Utf8

def encode (t : Text) : List UInt8 :=
  t.flatMap String.utf8EncodeChar

def byteCount (t : Text) : Nat :=
  (encode t).length

/-- The character that stands for bytes that are no text. -/
def replacement : Char := '\uFFFD'

/-- How many bytes follow the first one of a character. -/
def following? (first : Nat) : Option Nat :=
  if first < 0x80 then some 0
  else if 0xC2 ≤ first && first ≤ 0xDF then some 1
  else if 0xE0 ≤ first && first ≤ 0xEF then some 2
  else if 0xF0 ≤ first && first ≤ 0xF4 then some 3
  else none

/-- The least and the greatest second byte of a character.  The bounds leave out
codes that have a shorter form, surrogates, and codes that are too large. -/
def secondBounds (first : Nat) : Nat × Nat :=
  if first = 0xE0 then (0xA0, 0xBF)
  else if first = 0xED then (0x80, 0x9F)
  else if first = 0xF0 then (0x90, 0xBF)
  else if first = 0xF4 then (0x80, 0x8F)
  else (0x80, 0xBF)

/-- The bits of a first byte that belong to the code. -/
def leadingBits (first following : Nat) : Nat :=
  if following = 0 then first else first % Nat.pow 2 (6 - following)

/-- What the start of a list of bytes is. -/
inductive Next where
  | char (c : Char) (size : Nat)
  /-- So many bytes that belong to no character. -/
  | bad (size : Nat)
  /-- The start of a character whose end is missing. -/
  | incomplete

/-- Read the bytes that follow the first one. -/
def nextTail (code size low high : Nat) : Nat → List UInt8 → Next
  | 0, _ => .char (Char.ofNat code) size
  | _ + 1, [] => .incomplete
  | n + 1, b :: rest =>
    if low ≤ b.toNat && b.toNat ≤ high then
      nextTail (code * 64 + b.toNat % 64) (size + 1) 0x80 0xBF n rest
    else .bad size

def next (first : UInt8) (rest : List UInt8) : Next :=
  match following? first.toNat with
  | none => .bad 1
  | some following =>
    let (low, high) := secondBounds first.toNat
    nextTail (leadingBits first.toNat following) 1 low high following rest

/-- Where bytes stop being text. -/
structure DecodeError where
  /-- How many bytes are text. -/
  index : Nat
  /-- How many bytes belong to no character; none when the end is missing. -/
  size : Option Nat
  deriving DecidableEq, Repr

def DecodeError.message (e : DecodeError) : Text :=
  match e.size with
  | some size =>
    "invalid utf-8 sequence of " ++ Text.ofNat size ++ " bytes from index " ++ Text.ofNat e.index
  | none => "incomplete utf-8 byte sequence from index " ++ Text.ofNat e.index

/-- Decode with at most so many steps, of which each takes at least one byte. -/
def decodeFrom (index : Nat) : Nat → List UInt8 → Except DecodeError Text
  | _, [] => .ok []
  | 0, _ => .ok []
  | steps + 1, b :: rest =>
    match next b rest with
    | .char c size => (decodeFrom (index + size) steps (rest.drop (size - 1))).map (c :: ·)
    | .bad size => .error ⟨index, some size⟩
    | .incomplete => .error ⟨index, none⟩

def decode (bytes : List UInt8) : Except DecodeError Text :=
  decodeFrom 0 bytes.length bytes

def decodeLenientFrom : Nat → List UInt8 → Text
  | _, [] => []
  | 0, _ => []
  | steps + 1, b :: rest =>
    match next b rest with
    | .char c size => c :: decodeLenientFrom steps (rest.drop (size - 1))
    | .bad size => replacement :: decodeLenientFrom steps (rest.drop (size - 1))
    | .incomplete => [replacement]

/-- The text of bytes, with replacements for what is no text. -/
def decodeLenient (bytes : List UInt8) : Text :=
  decodeLenientFrom bytes.length bytes

end Utf8

end DevSpecs
