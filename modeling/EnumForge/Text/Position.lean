/-!
# Offsets, spans and line positions

Offsets count bytes of the UTF-8 text.  A line break is `\r\n`, a lone `\r`, or `\n`; it counts
once its last byte lies before the offset, and columns count the bytes other than `\r` and `\n`
since then, so an offset between `\r` and `\n` is still on the earlier line.
-/

namespace EnumForge.Text

/-- A byte range of a source text. -/
structure Span where
  start : Nat
  stop : Nat
deriving DecidableEq, Repr

namespace Span

/-- The least span that covers both. -/
def union (a b : Span) : Span := ⟨min a.start b.start, max a.stop b.stop⟩

end Span

/-- A place in a text, both numbers counted from one. -/
structure LineColumn where
  line : Nat
  column : Nat
deriving DecidableEq, Repr

namespace LineColumn

/-- Where one stands after `n` more bytes of `cs`. -/
def advance (here : LineColumn) : Nat → List Char → LineColumn
  | 0, _ => here
  | _ + 1, [] => here
  | n + 1, '\r' :: '\n' :: cs =>
    match n with
    | 0 => here
    | n + 1 => advance ⟨here.line + 1, 1⟩ n cs
  | n + 1, c :: cs =>
    if c = '\n' ∨ c = '\r' then advance ⟨here.line + 1, 1⟩ n cs
    else advance ⟨here.line, here.column + min (n + 1) c.utf8Size⟩ (n + 1 - c.utf8Size) cs

/-- The place of byte `offset` of `source`; offsets past the end stand for the end. -/
def ofOffset (source : String) (offset : Nat) : LineColumn :=
  advance ⟨1, 1⟩ offset source.toList

end LineColumn

/-- The number of bytes of a character list. -/
def byteSize : List Char → Nat
  | [] => 0
  | c :: cs => c.utf8Size + byteSize cs

/-- The characters that start before byte `n`, and the others. -/
def splitAtByte : Nat → List Char → List Char × List Char
  | 0, cs => ([], cs)
  | _ + 1, [] => ([], [])
  | n + 1, c :: cs =>
    let (before, after) := splitAtByte (n + 1 - c.utf8Size) cs
    (c :: before, after)

end EnumForge.Text
