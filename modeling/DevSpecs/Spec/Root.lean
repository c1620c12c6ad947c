import DevSpecs.Spec.Error

/-!
# The root node of a spec

A spec names a package and its options, followed by nodes that start with `%`
or `^`.  Everything before the first node is the root.  A root version token is
an `@` directly after the leading package name or after a blank, optional
blanks, and a run of token characters.  An `@` from the first node on belongs to
that node.

A root is read once into pieces, so that the tokens found in it and the text
that is left without them come from the same reading.
-/

namespace DevSpecs

namespace Spec

/-! ## Characters -/

/-- The characters of package names. -/
def isNameChar (c : Char) : Bool :=
  Text.isAlphanumeric c || c == '_' || c == '-'

/-- The characters of version tokens. -/
def isTokenChar (c : Char) : Bool :=
  Text.isAlphanumeric c || "_.:,=-".toList.contains c

/-- The characters that start a node. -/
def startsNode (c : Char) : Bool :=
  c == '%' || c == '^'

/-! ## Pieces -/

/-- A piece of a root: a character that stays, or the list of a version token. -/
inductive Piece where
  | kept (c : Char)
  | token (list : Text)
  deriving DecidableEq, Repr

/-- What follows the `@` of a token: its list and the text after it. -/
def tokenTail (t : Text) : Text × Text :=
  let list := Text.trimStart t
  (list.takeWhile isTokenChar, list.dropWhile isTokenChar)

theorem length_tokenTail_le (t : Text) : (tokenTail t).2.length ≤ t.length :=
  Nat.le_trans (List.dropWhile_sublist _).length_le (List.dropWhile_sublist _).length_le

/-- The pieces of a root after its leading name, where a token needs a blank
before its `@`. -/
def piecesAfterName : Text → List Piece
  | [] => []
  | [c] => [.kept c]
  | c :: d :: t =>
    if Text.isBlank c && d == '@' then
      .kept c :: .token (tokenTail t).1 :: piecesAfterName (tokenTail t).2
    else
      .kept c :: piecesAfterName (d :: t)
termination_by t => t.length
decreasing_by
  · have := length_tokenTail_le t
    simp only [List.length_cons]
    omega
  · simp

/-- The pieces of a root.  An `@` directly after a leading name starts a token. -/
def pieces (root : Text) : List Piece :=
  match root.takeWhile isNameChar, root.dropWhile isNameChar with
  | n :: name, '@' :: t =>
    (n :: name).map .kept ++ .token (tokenTail t).1 :: piecesAfterName (tokenTail t).2
  | _, _ => piecesAfterName root

/-- The characters that stay when the tokens are taken out. -/
def Piece.keptText : List Piece → Text
  | [] => []
  | kept c :: ps => c :: keptText ps
  | token _ :: ps => keptText ps

/-- The lists of the tokens, in the order written. -/
def Piece.tokens : List Piece → List Text
  | [] => []
  | kept _ :: ps => tokens ps
  | token list :: ps => list :: tokens ps

/-! ## Specs as texts -/

/-- The root of a spec and the nodes after it. -/
def rootAndNodes (spec : Text) : Text × Text :=
  spec.span (!startsNode ·)

/-- The leading package name. -/
def packageOf (spec : Text) : Except SpecError Text :=
  match spec.takeWhile isNameChar with
  | [] => .error (.missingPackage spec)
  | name => .ok name

/-- The spec without its root version tokens, its words joined by single
spaces. -/
def withoutVersion (spec : Text) : Text :=
  let (root, nodes) := rootAndNodes (Text.trim spec)
  Text.unwords (Text.words (Piece.keptText (pieces root)) ++ Text.words nodes)

/-- The spec with a version token attached to its root, before any node. -/
def withVersion (base token : Text) : Text :=
  let (root, nodes) := rootAndNodes base
  let pinned := Text.trimEnd root ++ ' ' :: token
  if nodes.isEmpty then pinned else pinned ++ ' ' :: nodes

end Spec

end DevSpecs
