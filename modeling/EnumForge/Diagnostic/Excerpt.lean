import EnumForge.Text.Position

/-!
# Excerpts

The part of a source that a report shows: the lines of a label, the line before them and the line
after them.  Lines start anew after a line feed, with or without a carriage return before it.
-/

namespace EnumForge

open Text

namespace Report

/-- A part of the source to point at, given by its first byte and its length. -/
structure Label where
  offset : Nat
  length : Nat
deriving DecidableEq, Repr

namespace Label

/-- The byte after the label. -/
def stop (l : Label) : Nat := l.offset + l.length

end Label

/-- The line breaks of a text that starts at byte `offset`. -/
def breakSpans (offset : Nat) : List Char → List Span
  | [] => []
  | '\r' :: '\n' :: cs => ⟨offset, offset + 2⟩ :: breakSpans (offset + 2) cs
  | c :: cs =>
    if c = '\r' ∨ c = '\n' then ⟨offset, offset + 1⟩ :: breakSpans (offset + 1) cs
    else breakSpans (offset + c.utf8Size) cs

/-- A line to show; its length counts the line break. -/
structure ShownLine where
  number : Nat
  offset : Nat
  length : Nat
  text : List Char
deriving DecidableEq, Repr

namespace ShownLine

/-- The byte after the line. -/
def stop (l : ShownLine) : Nat := l.offset + l.length

/-- The lines of a text, of which the first one starts with `start` at byte `offset`. -/
def ofText (number offset : Nat) (start : List Char) : List Char → List ShownLine
  | [] => if start.isEmpty then [] else [⟨number, offset, byteSize start, start⟩]
  | '\r' :: '\n' :: cs =>
    let length := byteSize start + 2
    ⟨number, offset, length, start⟩ :: ofText (number + 1) (offset + length) [] cs
  | c :: cs =>
    if c = '\n' then
      let length := byteSize start + 1
      ⟨number, offset, length, start⟩ :: ofText (number + 1) (offset + length) [] cs
    else ofText number offset (start ++ [c]) cs

/-! A label may lie inside a line, start in it, end in it, or go through it. -/

def holds (l : ShownLine) (a : Label) : Bool := l.offset ≤ a.offset && a.stop ≤ l.stop

def hasStart (l : ShownLine) (a : Label) : Bool := l.offset ≤ a.offset && a.offset < l.stop

def hasEnd (l : ShownLine) (a : Label) : Bool := l.offset < a.stop && a.stop ≤ l.stop

def isInside (l : ShownLine) (a : Label) : Bool := a.offset < l.offset && l.stop < a.stop

def meets (l : ShownLine) (a : Label) : Bool := l.hasStart a || l.hasEnd a || l.isInside a

end ShownLine

/-- The lines around a label; none if the label lies outside the source.  The line after the label
is the one after the first line break that follows its last byte. -/
def excerpt? (source : String) (a : Label) : Option (List ShownLine) :=
  let cs := source.toList
  let last := a.stop - 1
  if byteSize cs < last then none
  else
    let breaks := breakSpans 0 cs
    let before := (breaks.filter (·.stop ≤ a.offset)).map Span.stop
    let start := (before.dropLast.getLast?).getD 0
    let stop := match breaks.filter (last < ·.start) with
      | _ :: b :: _ => b.stop
      | _ => byteSize cs
    let text := (splitAtByte (stop - start) (splitAtByte start cs).2).1
    some (ShownLine.ofText (max before.length 1) start [] text)

end Report

end EnumForge
