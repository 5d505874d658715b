import EnumForge.Yaml.Number
import EnumForge.Yaml.Scalar

/-!
# Quoted scalars

Between single quotes a quote is written twice and all else stands for itself; between double
quotes there are escapes.  No line inside looks like a mark of a document.
-/

namespace EnumForge.Yaml

open Glyph (atDocumentMark)

/-- The text of a single-quoted scalar after its opening quote, and what follows. -/
def singleTail (gap : Gap) : List Glyph → Option (List Char × List Glyph)
  | [] => none
  | [g] => if g.char == '\x27' then some (gap.text, []) else none
  | g :: h :: gs =>
    if isSeparator g.char then singleTail (gap.add g.char) (h :: gs)
    else if atDocumentMark (g :: h :: gs) then none
    else if g.char ≠ '\x27' then
      (singleTail .none (h :: gs)).map fun (tail, rest) ↦ (gap.text ++ g.char :: tail, rest)
    else if h.char == '\x27' then
      (singleTail .none gs).map fun (tail, rest) ↦ (gap.text ++ g.char :: tail, rest)
    else some (gap.text, h :: gs)

/-! ### Escapes -/

def simpleEscape? : Char → Option Char
  | '0' => some '\x00'
  | 'a' => some '\x07'
  | 'b' => some '\x08'
  | 't' | '\t' => some '\t'
  | 'n' => some '\n'
  | 'v' => some '\x0b'
  | 'f' => some '\x0c'
  | 'r' => some '\r'
  | 'e' => some '\x1b'
  | ' ' => some ' '
  | '\x22' => some '\x22'
  | '/' => some '/'
  | '\\' => some '\\'
  | 'N' => some '\u0085'
  | '_' => some '\u00a0'
  | 'L' => some '\u2028'
  | 'P' => some '\u2029'
  | _ => none

/-- How many hexadecimal digits an escape takes. -/
def escapeWidth? : Char → Option Nat
  | 'x' => some 2
  | 'u' => some 4
  | 'U' => some 8
  | _ => none

/-- The character that hexadecimal digits name. -/
def charOfHex? (digits : List Char) : Option Char :=
  (natOfDigits? 16 digits).bind fun n ↦
    if n.isValidChar then some (Char.ofNat n) else none

/-- The character that an escape stands for, and how many characters follow its first one. -/
def escape? (c : Char) (gs : List Glyph) : Option (Char × Nat) :=
  match escapeWidth? c with
  | some width =>
    if gs.length < width then none
    else (charOfHex? (Glyph.chars (gs.take width))).map (·, width)
  | none => (simpleEscape? c).map (·, 0)

/-- The text of a double-quoted scalar after its opening quote, and what follows. -/
def doubleTail (gap : Gap) (gs : List Glyph) : Option (List Char × List Glyph) :=
  match gs with
  | [] => none
  | g :: gs =>
    if isSeparator g.char then doubleTail (gap.add g.char) gs
    else if atDocumentMark (g :: gs) then none
    else if g.char == '\x22' then some (gap.text, gs)
    else if g.char ≠ '\\' then
      (doubleTail .none gs).map fun (tail, rest) ↦ (gap.text ++ g.char :: tail, rest)
    else
      match gs with
      | [] => none
      | h :: gs =>
        if isBreak h.char then
          (doubleTail (.joined []) gs).map fun (tail, rest) ↦ (gap.text ++ tail, rest)
        else
          match escape? h.char gs with
          | none => none
          | some (c, width) =>
            (doubleTail .none (gs.drop width)).map fun (tail, rest) ↦
              (gap.text ++ c :: tail, rest)
termination_by gs.length

end EnumForge.Yaml
