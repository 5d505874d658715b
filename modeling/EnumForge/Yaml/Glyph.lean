/-!
# Characters of YAML texts

Which characters a text may hold, which of them separate, and where each one stands.
-/

namespace EnumForge.Yaml

/-! ### Classes -/

/-- Characters that a text may hold. -/
def isAllowed (c : Char) : Bool :=
  let n := c.toNat
  n == 9 || n == 10 || n == 13 || 0x20 ≤ n && n ≤ 0x7E || n == 0x85 ||
    0xA0 ≤ n && n ≤ 0xFFFD || 0x10000 ≤ n

/-- Characters that end a line, once `normalBreaks` has been applied. -/
def isBreak (c : Char) : Bool := c == '\n' || c == '\u2028' || c == '\u2029'

def isBlank (c : Char) : Bool := c == ' ' || c == '\t'

/-- Blanks and line breaks. -/
def isSeparator (c : Char) : Bool := isBlank c || isBreak c

/-- Characters that stand for themselves only outside brackets. -/
def isFlowMark (c : Char) : Bool := ",[]\x7b\x7d".toList.contains c

/-- Characters of names. -/
def isNameChar (c : Char) : Bool := c.isAlphanum || c == '_' || c == '-'

/-- Every line break becomes a single character, and a line feed unless it is a separator of lines
or paragraphs. -/
def normalBreaks : List Char → List Char
  | [] => []
  | '\r' :: '\n' :: cs => '\n' :: normalBreaks cs
  | '\r' :: cs => '\n' :: normalBreaks cs
  | '\u0085' :: cs => '\n' :: normalBreaks cs
  | c :: cs => c :: normalBreaks cs

/-! ### Places -/

/-- A character and where it stands; the offset counts bytes. -/
structure Glyph where
  char : Char
  line : Nat
  column : Nat
  offset : Nat
deriving DecidableEq, Repr

namespace Glyph

/-- The characters of a text that starts at the given place. -/
def place (line column offset : Nat) : List Char → List Glyph
  | [] => []
  | c :: cs => ⟨c, line, column, offset⟩ ::
    if isBreak c then place (line + 1) 0 (offset + c.utf8Size) cs
    else place line (column + 1) (offset + c.utf8Size) cs

def ofText (cs : List Char) : List Glyph := place 0 0 0 cs

def chars (gs : List Glyph) : List Char := gs.map Glyph.char

/-- Whether a separator or the end comes next. -/
def atSeparator (gs : List Glyph) : Bool := gs.head?.all fun g ↦ isSeparator g.char

/-- Whether a line starts here with three marks that stand alone. -/
def atMarks (mark : Char) (gs : List Glyph) : Bool :=
  gs.head?.any (·.column == 0) && chars (gs.take 3) == [mark, mark, mark] &&
    atSeparator (gs.drop 3)

/-- Whether a mark of the start or the end of a document comes next. -/
def atDocumentMark (gs : List Glyph) : Bool := atMarks '-' gs || atMarks '.' gs

/-- What follows blanks. -/
def dropBlanks (gs : List Glyph) : List Glyph := gs.dropWhile fun g ↦ isBlank g.char

/-- What follows the rest of a line that holds at most a comment. -/
def afterLine? (gs : List Glyph) : Option (List Glyph) :=
  match dropBlanks gs with
  | [] => some []
  | g :: gs =>
    if isBreak g.char then some gs
    else if g.char == '#' then some ((gs.dropWhile fun h ↦ !isBreak h.char).drop 1)
    else none

/-- The name that comes next, and what follows it. -/
def name (gs : List Glyph) : List Char × List Glyph :=
  (chars (gs.takeWhile fun g ↦ isNameChar g.char), gs.dropWhile fun g ↦ isNameChar g.char)

end Glyph

end EnumForge.Yaml
