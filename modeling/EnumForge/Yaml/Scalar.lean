import EnumForge.Yaml.Glyph

/-!
# Gaps inside scalars

A scalar may run over several lines.  Blanks around a line break do not count, a single line feed
stands for a space, and of several the first one does not count.
-/

namespace EnumForge.Yaml

/-- How a scalar was written. -/
inductive ScalarForm where
  | plain
  | quoted
  /-- A block whose line breaks are kept. -/
  | literal
  /-- A block whose line breaks are folded. -/
  | folded
deriving DecidableEq, Repr

/-- Blanks and line breaks between two words of a scalar. -/
inductive Gap where
  | blanks (text : List Char)
  | lines (first : Char) (further : List Char)
  /-- After a line break that is not part of the text. -/
  | joined (further : List Char)
deriving DecidableEq, Repr

namespace Gap

/-- No gap at all. -/
def none : Gap := .blanks []

def isBroken : Gap → Bool
  | blanks _ => false
  | lines _ _ | joined _ => true

/-- One more character of the gap; blanks after a line break are skipped. -/
def add (gap : Gap) (c : Char) : Gap :=
  match gap with
  | blanks text => if isBreak c then lines c [] else blanks (text ++ [c])
  | lines first further => if isBreak c then lines first (further ++ [c]) else gap
  | joined further => if isBreak c then joined (further ++ [c]) else gap

/-- The text that the gap stands for. -/
def text : Gap → List Char
  | blanks text => text
  | lines '\n' [] => [' ']
  | lines '\n' further => further
  | lines first further => first :: further
  | joined further => further

end Gap

end EnumForge.Yaml
