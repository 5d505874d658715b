/-!
# Wrapped lines

A line is cut into pieces, each a word or a part of one with the spaces after it.  As many pieces
as fit stand on one line, and the spaces at a line's end are dropped.
-/

namespace EnumForge.Text

/-- A part of a line that is not broken further, with the spaces after it. -/
structure Piece where
  text : List Char
  spaces : List Char
deriving DecidableEq, Repr

namespace Piece

/-- Whether a line may be broken before `d`, which follows the characters `b` and `c`: spaces end
before it, or a hyphen inside a word does. -/
def breaksBetween (b c d : Char) : Bool :=
  c == ' ' && d != ' ' || c == '-' && b.isAlphanum && d.isAlphanum

/-- The piece that ends with the given characters. -/
def ofChars (cs : List Char) : Piece :=
  ⟨(cs.reverse.dropWhile (· == ' ')).reverse, (cs.reverse.takeWhile (· == ' ')).reverse⟩

/-- The pieces of a line, of which the first one starts with `start`. -/
def cut (start : List Char) : List Char → List Piece
  | [] => if start.isEmpty then [] else [ofChars start]
  | c :: cs =>
    if cs.head?.any (breaksBetween (start.getLast?.getD ' ') c) then
      ofChars (start ++ [c]) :: cut [] cs
    else cut (start ++ [c]) cs

/-- A piece that is too long is broken anywhere; `left` is the room on the line it is on. -/
def breakLong (width left : Nat) (spaces start : List Char) : List Char → List Piece
  | [] => [⟨start, spaces⟩]
  | c :: cs =>
    if left = 0 then ⟨start, []⟩ :: breakLong width (width - 1) spaces [c] cs
    else breakLong width (left - 1) spaces (start ++ [c]) cs

/-- The pieces of a line, none of which is longer than `width`. -/
def ofLine (width : Nat) (cs : List Char) : List Piece :=
  (cut [] cs).flatMap fun p ↦ breakLong width (max width 1) p.spaces [] p.text

/-- Puts pieces on lines, of which the first one holds `line`, with spaces before what follows. -/
def fill (width : Nat) (line spaces : List Char) : List Piece → List (List Char)
  | [] => [line]
  | p :: ps =>
    if width < line.length + spaces.length + p.text.length then
      line :: fill width p.text p.spaces ps
    else fill width (line ++ spaces ++ p.text) p.spaces ps

end Piece

/-- The lines that a text takes when none of them is longer than `width`. -/
def wrap (width : Nat) (text : String) : List String :=
  (text.splitOn "\n").flatMap fun line ↦
    (Piece.fill width [] [] (Piece.ofLine width line.toList)).map String.ofList

/-- Lines with `first` before the first one and `further` before the others. -/
def hang (first further : String) : List String → List String
  | [] => []
  | line :: lines => (first ++ line) :: lines.map (further ++ ·)

end EnumForge.Text
