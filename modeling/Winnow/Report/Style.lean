import Winnow.Text

/-!
# Styled text

How text is coloured on a terminal: a sequence of codes before it, and a reset
after it. A reset inside the text is followed by the codes again, so that the
style holds up to the end.
-/
namespace Winnow

structure Style where
  codes : List Nat
deriving DecidableEq, Repr

namespace Style

def bold : Style := ⟨[1]⟩
def dimmed : Style := ⟨[2]⟩
def red : Style := ⟨[31]⟩
def green : Style := ⟨[32]⟩
def yellow : Style := ⟨[33]⟩
def cyan : Style := ⟨[36]⟩

/-- Both together, the codes of the first before those of the second. -/
instance : Append Style := ⟨fun a b => ⟨a.codes ++ b.codes⟩⟩

def reset : String := "\x1b[0m"

def start (s : Style) : String := "\x1b[" ++ Text.joined ";" (s.codes.map toString) ++ "m"

/-- The text in a style. -/
def apply (s : Style) (text : String) : String :=
  s.start ++ Text.joined (reset ++ s.start) (text.splitOn reset) ++ reset

end Style

/-- Whether styles are shown. -/
structure Palette where
  coloured : Bool

/-- The text in a style if styles are shown. -/
def Palette.paint (p : Palette) (s : Style) (text : String) : String :=
  if p.coloured then s.apply text else text

end Winnow
