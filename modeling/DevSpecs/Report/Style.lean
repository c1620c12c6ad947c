import DevSpecs.Text.Basic

/-!
# Styles

A terminal shows a text in a style when a sequence that starts the style stands before
it.  Every style ends with the same reset, after which a style around it has to start
again.
-/

namespace DevSpecs

/-- A way of writing on a terminal. -/
inductive Style where
  | bold
  | dimmed
  | green
  | cyan
  | boldRed
  | boldYellow
  deriving DecidableEq, Repr

namespace Style

def code : Style → Text
  | bold => "1"
  | dimmed => "2"
  | green => "32"
  | cyan => "36"
  | boldRed => "1;31"
  | boldYellow => "1;33"

/-- The sequence that ends every style. -/
def reset : Text := "\x1b[0m"

/-- The sequence that starts a style. -/
def start (s : Style) : Text :=
  '\x1b' :: '[' :: s.code ++ ['m']

/-- The text in which a style starts again after every reset. -/
def resuming (s : Style) : Text → Text
  | '\x1b' :: '[' :: '0' :: 'm' :: t => reset ++ s.start ++ resuming s t
  | c :: t => c :: resuming s t
  | [] => []

def paint (s : Style) (t : Text) : Text :=
  s.start ++ s.resuming t ++ reset

end Style

end DevSpecs
