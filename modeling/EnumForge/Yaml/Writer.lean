import EnumForge.Text.Lines
import EnumForge.Yaml.Glyph
import EnumForge.Yaml.Number

/-!
# Writing YAML scalars

A text is written plain where it reads back as the same text, in single quotes where it would be
taken for something else, as a literal block where it has several lines, and in double quotes
where none of these can hold it.
-/

namespace EnumForge.Yaml

open Text

/-- Plain scalars that stand for nothing or for a truth value. -/
def reservedWords : List String :=
  ["null", "Null", "NULL", "~", "true", "True", "TRUE", "false", "False", "FALSE"]

/-- Whether a plain scalar with this text would not be read as a text. -/
def isAmbiguous (text : String) : Bool :=
  text.isEmpty || reservedWords.contains text || looksNumeric text

/-- Characters that need no escape. -/
def isPrintable (c : Char) : Bool :=
  let n := c.toNat
  c == '\n' || 0x20 ≤ n && n ≤ 0x7E || 0xA0 ≤ n && n ≤ 0xFFFD && n != 0xFEFF || 0x10000 ≤ n

/-- Whether a blank or the end comes next. -/
def blankNext (cs : List Char) : Bool := cs.head?.all isBlank

/-- Whether a plain scalar may not start like this. -/
def badStart : List Char → Bool
  | [] => false
  | c :: cs =>
    "#,[]\x7b\x7d&*!|>'\"%@`".toList.contains c ||
      "-?:".toList.contains c && blankNext cs ||
      ['-', '-', '-'].isPrefixOf (c :: cs) || ['.', '.', '.'].isPrefixOf (c :: cs)

/-- Whether, after the character `last`, a colon before a blank or a hash after one comes up. -/
def badInside (last : Char) : List Char → Bool
  | [] => false
  | c :: cs =>
    c == ':' && blankNext cs || c == '#' && isBlank last || badInside c cs

/-- A space at one of the ends. -/
def hasOuterSpace (cs : List Char) : Bool :=
  cs.head? == some ' ' || cs.getLast? == some ' '

/-- Whether a character that passes `p` stands right before one that passes `q`. -/
def hasPair (p q : Char → Bool) : List Char → Bool
  | a :: b :: cs => p a && q b || hasPair p q (b :: cs)
  | _ => false

/-- Whether the text reads back as itself without quotes, as far as its characters go. -/
def isPlain : List Char → Bool
  | [] => false
  | c :: cs =>
    !badStart (c :: cs) && !badInside c cs && !hasOuterSpace (c :: cs) && !(c :: cs).any isBreak

/-! ### Styles -/

/-- How a scalar is written. -/
inductive Style where
  | plain
  | singleQuoted
  | doubleQuoted
  /-- A block of lines. -/
  | literal
deriving DecidableEq, Repr

/-- The style of a text.  Only double quotes can hold characters that need an escape and spaces
before a line break, and single quotes hold no space after one. -/
def styleOf (text : String) : Style :=
  let cs := text.toList
  if !cs.all isPrintable || hasPair (· == ' ') isBreak cs then .doubleQuoted
  else if cs.contains '\n' then .literal
  else if hasPair isBreak (· == ' ') cs then .doubleQuoted
  else if isAmbiguous text || !isPlain cs then .singleQuoted
  else .plain

/-- The text with `indent` where a line starts that is not empty; `start` says that the text
itself starts one. -/
def indentLines (indent : List Char) (start : Bool) : List Char → List Char
  | [] => []
  | c :: cs =>
    if isBreak c then c :: indentLines indent true cs
    else (if start then indent else []) ++ c :: indentLines indent false cs

/-- A quote is written twice, and the closing quote is indented if it starts a line. -/
def singleQuoted (indent : String) (cs : List Char) : String :=
  let doubled := cs.flatMap fun c ↦ if c = '\x27' then [c, c] else [c]
  "'" ++ String.ofList (indentLines indent.toList false doubled) ++
    (if cs.getLast?.any isBreak then indent else "") ++ "'"

/-- Lines below a mark that drops the last line break. -/
def literal (indent : String) (cs : List Char) : String :=
  "|-\n" ++ String.ofList (indentLines indent.toList true cs)

def hexDigits (width n : Nat) : String :=
  let digits := (Nat.toDigits 16 n).map Char.toUpper
  copies (width - digits.length) '0' ++ String.ofList digits

def escapeChar (c : Char) : String :=
  let n := c.toNat
  if c = '\x22' then "\\\""
  else if c = '\\' then "\\\\"
  else if c = '\n' then "\\n"
  else if n = 0x2028 then "\\L"
  else if n = 0x2029 then "\\P"
  else if isPrintable c then String.singleton c
  else if n = 0 then "\\0"
  else if n = 7 then "\\a"
  else if n = 8 then "\\b"
  else if n = 9 then "\\t"
  else if n = 11 then "\\v"
  else if n = 12 then "\\f"
  else if n = 13 then "\\r"
  else if n = 27 then "\\e"
  else if n = 0x85 then "\\N"
  else if n ≤ 0xFF then "\\x" ++ hexDigits 2 n
  else if n ≤ 0xFFFF then "\\u" ++ hexDigits 4 n
  else "\\U" ++ hexDigits 8 n

def doubleQuoted (cs : List Char) : String := "\"" ++ String.join (cs.map escapeChar) ++ "\""

/-- A scalar; its lines after the first start with `indent`.  A text of several lines neither
starts nor ends with a blank or a line break. -/
def scalarText (indent text : String) : String :=
  match styleOf text with
  | .plain => text
  | .singleQuoted => singleQuoted indent text.toList
  | .doubleQuoted => doubleQuoted text.toList
  | .literal => literal indent text.toList

end EnumForge.Yaml
