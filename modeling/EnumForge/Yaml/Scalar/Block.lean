import EnumForge.Yaml.Scalar

/-!
# Block scalars

Lines below a mark, all indented alike.  The mark says whether line breaks are kept or folded,
what becomes of those at the end, and perhaps how far the lines are indented.
-/

namespace EnumForge.Yaml

/-- What becomes of the line breaks at the end. -/
inductive Chomping where
  /-- None is kept. -/
  | strip
  /-- The first one is kept. -/
  | clip
  /-- All are kept. -/
  | keep
deriving DecidableEq, Repr

namespace Chomping

def ofChar? : Char → Option Chomping
  | '-' => some .strip
  | '+' => some .keep
  | _ => none

end Chomping

/-- What stands after the mark of a block scalar. -/
structure BlockHeader where
  chomping : Chomping := .clip
  /-- How much more the lines are indented than what holds them. -/
  increment : Option Nat := none
deriving DecidableEq, Repr

namespace BlockHeader

/-- One character of the header; neither part may stand twice. -/
def add? (h : BlockHeader) (c : Char) : Option BlockHeader :=
  match Chomping.ofChar? c with
  | some chomping => if h.chomping = .clip then some { h with chomping } else none
  | none =>
    if c.isDigit ∧ c ≠ '0' ∧ h.increment = none then
      some { h with increment := some (c.toNat - '0'.toNat) }
    else none

/-- The header, and what follows its line. -/
def read : List Glyph → Option (BlockHeader × List Glyph) :=
  go {}
where
  go (h : BlockHeader) : List Glyph → Option (BlockHeader × List Glyph)
    | [] => some (h, [])
    | g :: gs =>
      if (Chomping.ofChar? g.char).isSome || g.char.isDigit then
        match h.add? g.char with
        | some h => go h gs
        | none => none
      else (Glyph.afterLine? (g :: gs)).map (h, ·)

end BlockHeader

/-- The widest indentation up to the first line that is not empty; none if a tab stands in it. -/
def widestIndent? (widest : Nat) : List Glyph → Option Nat
  | [] => some widest
  | g :: gs =>
    if g.char == ' ' then widestIndent? (max widest (g.column + 1)) gs
    else if g.char == '\t' then none
    else if isBreak g.char then widestIndent? widest gs
    else some widest

/-- The line breaks that have been read and not yet written. -/
structure LineEnd where
  /-- The end of the last line that is not empty. -/
  lead : List Char := []
  /-- The ends of the empty lines after it. -/
  trail : List Char := []
  /-- Whether the last line that is not empty starts with a blank. -/
  blank : Bool := false
deriving DecidableEq, Repr

namespace LineEnd

/-- What stands between the last line and one that starts with `c`.  Between two lines that do
not start with a blank, line breaks are folded. -/
def text (e : LineEnd) (folds : Bool) (c : Char) : List Char :=
  if folds && e.lead == ['\n'] && !e.blank && !isBlank c then
    if e.trail.isEmpty then [' '] else e.trail
  else e.lead ++ e.trail

/-- What is kept at the end. -/
def chomped (e : LineEnd) : Chomping → List Char
  | .strip => []
  | .clip => e.lead
  | .keep => e.lead ++ e.trail

end LineEnd

/-- The text of lines that start at column `indent`, and what follows them; `inside` says whether
a line has already started. -/
def blockText (folds : Bool) (chomping : Chomping) (indent : Nat) (ends : LineEnd)
    (inside : Bool) : List Glyph → Option (List Char × List Glyph)
  | [] => some (ends.chomped chomping, [])
  | g :: gs =>
    if inside then
      if isBreak g.char then
        blockText folds chomping indent { ends with lead := [g.char], trail := [] } false gs
      else
        (blockText folds chomping indent ends true gs).map fun (tail, rest) ↦
          (g.char :: tail, rest)
    else if isBreak g.char then
      blockText folds chomping indent { ends with trail := ends.trail ++ [g.char] } false gs
    else if g.column < indent ∧ g.char = ' ' then blockText folds chomping indent ends false gs
    else if g.column < indent ∧ g.char = '\t' then none
    else if g.column ≠ indent then some (ends.chomped chomping, g :: gs)
    else
      (blockText folds chomping indent { blank := isBlank g.char } true gs).map
        fun (tail, rest) ↦ (ends.text folds g.char ++ g.char :: tail, rest)

/-- A block scalar after its mark, and what follows it.  What holds it is indented by `parent`. -/
def blockScalar (folds : Bool) (parent : Option Nat) (gs : List Glyph) :
    Option (List Char × List Glyph) :=
  match BlockHeader.read gs with
  | none => none
  | some (header, gs) =>
    let least := match parent with
      | some n => n + 1
      | none => 1
    match header.increment with
    | some n => blockText folds header.chomping (parent.getD 0 + n) {} false gs
    | none =>
      match widestIndent? 0 gs with
      | none => none
      | some widest => blockText folds header.chomping (max widest least) {} false gs

end EnumForge.Yaml
