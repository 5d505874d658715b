import EnumForge.Yaml.Scalar

/-!
# Plain scalars

A plain scalar has no marks around it, so what may start it, stand in it and follow it depends on
whether it stands inside brackets and on how far it must be indented.
-/

namespace EnumForge.Yaml

open Glyph (atSeparator atDocumentMark)

/-- Whether a plain scalar may start with `c` before `gs`. -/
def startsPlain (flow : Bool) (c : Char) (gs : List Glyph) : Bool :=
  if c == '-' then !atSeparator gs
  else if c == '?' || c == ':' then !flow && !atSeparator gs
  else !(isSeparator c || isFlowMark c || "#&*!|>'\"%@`".toList.contains c)

/-- Whether a plain scalar ends before `c`, which comes before `gs`. -/
def endsPlain (flow : Bool) (c : Char) (gs : List Glyph) : Bool :=
  c == ':' && atSeparator gs || flow && isFlowMark c

/-- A colon that is neither inside a word nor the end of a key. -/
def isStrayColon (flow : Bool) (c : Char) (gs : List Glyph) : Bool :=
  flow && c == ':' && gs.head?.any fun g ↦ isFlowMark g.char || g.char == '?'

/-- A plain scalar, or what is left of it after `gap`: its text, whether lines end between it and
what follows, and what follows.  Its further lines start at column `indent` at least, unless they
stand inside brackets. -/
def plainScalar (flow : Bool) (indent : Nat) (gap : Gap) :
    List Glyph → Option (List Char × Bool × List Glyph)
  | [] => some ([], gap.isBroken, [])
  | g :: gs =>
    if isSeparator g.char then
      if g.char == '\t' && gap.isBroken && g.column < indent then none
      else plainScalar flow indent (gap.add g.char) gs
    else if gap ≠ .none ∧
        (g.char == '#' || atDocumentMark (g :: gs) || !flow && g.column < indent) then
      some ([], gap.isBroken, g :: gs)
    else if isStrayColon flow g.char gs then none
    else if endsPlain flow g.char gs then some ([], gap.isBroken, g :: gs)
    else
      (plainScalar flow indent .none gs).map fun (tail, broken, rest) ↦
        (gap.text ++ g.char :: tail, broken, rest)

end EnumForge.Yaml
