import EnumForge.Diagnostic
import EnumForge.Diagnostic.Excerpt
import EnumForge.Text.Lines
import EnumForge.Text.Wrap

/-!
# Reports

A diagnostic as a drawing for a terminal: its identifier, its message, the lines of the source it
is about with the lines next to them, and one line of help for each fix-it.
-/

namespace EnumForge

open Text

namespace Diagnostic

/-- What a report points at, at least one byte wide. -/
def label? (d : Diagnostic) : Option Report.Label :=
  d.span.map fun s ↦ ⟨s.start, max s.stop (s.start + 1) - s.start⟩

/-- One line of help for each fix-it. -/
def helpLines (d : Diagnostic) : List String :=
  d.fixIts.map fun f ↦ f.message ++ " [" ++ f.id.text ++ "]"

def help? (d : Diagnostic) : Option String :=
  if d.fixIts.isEmpty then none else some ("\n".intercalate d.helpLines)

end Diagnostic

namespace Report

/-! ### Strokes -/

/-- What drawings are made of. -/
structure Strokes where
  bar : Char
  post : Char
  dot : Char
  arrow : Char
  top : Char
  bottom : Char
  /-- A post with a branch to its right. -/
  branchRight : Char
  /-- A post with a branch to its left. -/
  branchLeft : Char
  underline : Char
  /-- A part of an underline with a branch below. -/
  branchDown : Char
  error : Char
  warning : Char
deriving DecidableEq, Repr

def Strokes.boxes : Strokes :=
  ⟨'─', '│', '·', '▶', '╭', '╰', '├', '┤', '─', '┬', '×', '⚠'⟩

def Strokes.ascii : Strokes :=
  ⟨'-', '|', ':', '>', ',', '\x60', '|', '|', '^', '|', 'x', '!'⟩

/-- How a report is drawn: with which strokes, and in how many columns. -/
structure Canvas where
  strokes : Strokes := .boxes
  width : Nat := 120
deriving DecidableEq, Repr

def Strokes.icon (k : Strokes) : Severity → Char
  | .error => k.error
  | .warning => k.warning

/-! ### Columns -/

/-- How many columns a character takes that starts at `column`: a tab goes to the next stop, and
other control characters take none. -/
def charWidth (column : Nat) (c : Char) : Nat :=
  if c = '\t' then 4 - column % 4
  else if c.toNat < 0x20 ∨ 0x7F ≤ c.toNat ∧ c.toNat < 0xA0 then 0
  else 1

/-- The column after a text that starts at `column`. -/
def columnAfter (column : Nat) (cs : List Char) : Nat :=
  cs.foldl (fun column c ↦ column + charWidth column c) column

/-- A text with its tabs filled up with spaces. -/
def expandTabs (column : Nat) : List Char → List Char
  | [] => []
  | c :: cs =>
    let width := charWidth column c
    (if c = '\t' then List.replicate width ' ' else [c]) ++ expandTabs (column + width) cs

/-- The characters that end before byte `n`. -/
def takeBytes : Nat → List Char → List Char
  | _, [] => []
  | n, c :: cs => if c.utf8Size ≤ n then c :: takeBytes (n - c.utf8Size) cs else []

/-- The columns that a label takes below the line that holds it: all of each character it touches,
and one for the line break. -/
def labelColumns (l : ShownLine) (a : Label) : Nat × Nat :=
  let column (n : Nat) (cs : List Char) : Nat :=
    columnAfter 0 cs + (if byteSize l.text < n then 1 else 0)
  let first := a.offset - l.offset
  let last := a.stop - l.offset
  let start := column first (takeBytes first l.text)
  (start, max (column last (splitAtByte last l.text).1) (start + 1))

/-! ### Lines -/

/-- The message at the end of a stroke that leads to it; several lines stand behind a post. -/
def branch (k : Strokes) (bars : Nat) (message : String) : List String :=
  match message.splitOn "\n" with
  | first :: second :: rest =>
    (k.bottom.toString ++ copies bars k.bar ++ String.ofList [k.branchLeft, ' '] ++ first) ::
      (second :: rest).map (copies (bars + 1) ' ' ++ String.ofList [k.post, ' '] ++ ·)
  | lines => lines.map (k.bottom.toString ++ copies (2 * bars) k.bar ++ " " ++ ·)

/-- The underline of a label inside one line, and the message below its middle. -/
def underlined (k : Strokes) (message : String) (l : ShownLine) (a : Label) : List String :=
  let (start, stop) := labelColumns l a
  let middle := (start + stop) / 2
  (copies start ' ' ++ copies (middle - start) k.underline ++ k.branchDown.toString ++
      copies (stop - middle - 1) k.underline) ::
    (branch k 1 message).map (copies middle ' ' ++ ·)

/-- The strokes before a line of the source, which join the lines of a label of several lines. -/
def margin (k : Strokes) (l : ShownLine) (a : Label) : String :=
  if !l.meets a || l.holds a then "    "
  else if l.offset ≤ a.offset then String.ofList [k.top, k.bar, k.arrow, ' ']
  else if a.stop ≤ l.stop then String.ofList [k.branchRight, k.bar, k.arrow, ' ']
  else String.ofList [k.post, ' ', ' ', ' ']

/-- What is drawn below a line of the source. -/
def below (k : Strokes) (message : String) (l : ShownLine) (a : Label) : List String :=
  if !l.meets a then []
  else if l.holds a then underlined k message l a
  else if a.offset < l.offset ∧ a.stop ≤ l.stop then branch k 2 message
  else []

/-- The lines of the source around a label, and the message at its end. -/
def drawing (k : Strokes) (file source message : String) (a : Label)
    (shown : List ShownLine) : List String :=
  let place := LineColumn.ofOffset source a.offset
  let width := ((shown.getLast?.map ShownLine.number).getD 0).repr.length
  let indent := copies (width + 2) ' '
  let isTall := shown.any fun l ↦ l.meets a && !l.holds a
  [indent ++ String.ofList [k.top, k.bar, '['] ++ file ++ ":" ++ place.line.repr ++ ":" ++
      place.column.repr ++ "]"] ++
    (shown.flatMap fun l ↦
      (" " ++ padNat width l.number ++ String.ofList [' ', k.post, ' '] ++
          (if isTall then margin k l a else "") ++ String.ofList (expandTabs 0 l.text)) ::
        (below k message l a).map (indent ++ String.ofList [k.dot, ' '] ++ ·)) ++
    [indent ++ k.bottom.toString ++ copies 4 k.bar]

/-- What is drawn of the source; a label that lies outside is only described. -/
def snippet (k : Strokes) (file source message : String) (a : Label) : List String :=
  match excerpt? source a with
  | some shown => drawing k file source message a shown
  | none => ["  [Failed to read contents for label \x60" ++ message ++ "\x60 (offset: " ++
      a.offset.repr ++ ", length: " ++ a.length.repr ++ "): OutOfBounds]"]

/-- All lines of the drawing.  Two columns stay free on the right. -/
def lines (canvas : Canvas) (file source : String) (d : Diagnostic) : List String :=
  let k := canvas.strokes
  let width := canvas.width - 2
  [d.id.text, ""] ++
    hang (String.ofList [' ', ' ', k.icon d.severity, ' ']) (String.ofList [' ', ' ', k.post, ' '])
      (wrap (width - 4) d.message) ++
    (d.label?.map (snippet k file source d.message)).getD [] ++
    (d.help?.map fun help ↦ hang "  help: " "        " (wrap (width - 8) help)).getD []

def render (canvas : Canvas) (file source : String) (d : Diagnostic) : String :=
  String.join ((lines canvas file source d).map (· ++ "\n"))

end Report

end EnumForge
