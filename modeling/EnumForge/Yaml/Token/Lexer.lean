import EnumForge.Yaml.Scalar.Block
import EnumForge.Yaml.Scalar.Plain
import EnumForge.Yaml.Scalar.Quoted
import EnumForge.Yaml.Token.Property

/-!
# Reading YAML tokens

Indentation opens and closes blocks, and a node turns out to be a key only when its colon comes.
So the reader keeps the columns of the blocks that are open, and for every level of brackets the
node that may still become a key.
-/

namespace EnumForge.Yaml

open Glyph (atSeparator atMarks)

/-- A node that becomes a key if a colon follows it. -/
structure PossibleKey where
  /-- How many tokens come before it. -/
  index : Nat
  /-- Where it starts. -/
  start : Glyph
  /-- Nothing but a key can stand there. -/
  required : Bool
deriving DecidableEq, Repr

namespace PossibleKey

/-- A key and its colon stand on one line, not too far apart. -/
def isStale (k : PossibleKey) (now : Glyph) : Bool :=
  k.start.line < now.line || k.start.offset + 1024 < now.offset

end PossibleKey

/-- What is known after some of the tokens. -/
structure Context where
  /-- The tokens, the last one first. -/
  tokens : List Token := []
  /-- The columns of the open blocks, the innermost one first. -/
  columns : List Nat := []
  /-- Whether a key may start here. -/
  keyAllowed : Bool := true
  /-- The possible key inside the innermost brackets. -/
  key : Option PossibleKey := none
  /-- The possible keys around each pair of open brackets, the innermost pair first. -/
  outerKeys : List (Option PossibleKey) := []
  /-- The names of anchors with their numbers. -/
  anchors : List (String × Nat) := []
deriving DecidableEq, Repr

namespace Context

/-- Whether brackets are open. -/
def inFlow (x : Context) : Bool := !x.outerKeys.isEmpty

/-- The least column at which a plain scalar goes on. -/
def indent (x : Context) : Nat :=
  match x.columns with
  | [] => 0
  | column :: _ => column + 1

def push (x : Context) (t : Token) : Context := { x with tokens := t :: x.tokens }

def allowKey (x : Context) (allowed : Bool) : Context := { x with keyAllowed := allowed }

/-! ### Keys -/

/-- Gives up the possible key; none if it had to be one. -/
def dropKey (x : Context) : Option Context :=
  if x.key.any (·.required) then none else some { x with key := none }

/-- Whether a key that had to be one has become too long. -/
def missesKey (x : Context) (now : Glyph) : Bool :=
  (x.key :: x.outerKeys).any (Option.any fun k ↦ k.isStale now && k.required)

/-- Gives up the possible keys that have become too long. -/
def dropStale (x : Context) (now : Glyph) : Option Context :=
  if x.missesKey now then none
  else some {
    x with
    key := x.key.filter (!·.isStale now)
    outerKeys := x.outerKeys.map (Option.filter (!·.isStale now)) }

/-- Takes down that the node at `start` may become a key. -/
def saveKey (x : Context) (start : Glyph) : Option Context :=
  if x.keyAllowed then
    let required := !x.inFlow && x.columns.head? == some start.column
    x.dropKey.map ({ · with key := some ⟨x.tokens.length, start, required⟩ })
  else some x

/-! ### Blocks -/

/-- Opens a block at a column, unless one is open there or brackets are; its token comes after
`index` others. -/
def openBlock (x : Context) (t : Token) (column index : Nat) : Context :=
  if x.inFlow || x.columns.head?.any (column ≤ ·) then x
  else {
    x with
    columns := column :: x.columns
    tokens := x.tokens.insertIdx (x.tokens.length - index) t }

/-- Closes the blocks that stand further right than allowed. -/
def closeBlocks (x : Context) (isRight : Nat → Bool) : Context :=
  if x.inFlow then x
  else {
    x with
    tokens := List.replicate (x.columns.takeWhile isRight).length .blockEnd ++ x.tokens
    columns := x.columns.dropWhile isRight }

def closeAll (x : Context) : Context := x.closeBlocks fun _ ↦ true

/-! ### Marks -/

/-- A mark between documents. -/
def documentMark (x : Context) (t : Token) : Option Context :=
  x.closeAll.dropKey.map fun x ↦ (x.allowKey false).push t

def openFlow (x : Context) (t : Token) (start : Glyph) : Option Context :=
  (x.saveKey start).map fun x ↦
    { (x.allowKey true).push t with key := none, outerKeys := x.key :: x.outerKeys }

def closeFlow (x : Context) (t : Token) : Option Context :=
  x.dropKey.map fun x ↦
    let x := (x.allowKey false).push t
    match x.outerKeys with
    | [] => x
    | key :: outerKeys => { x with key, outerKeys }

def comma (x : Context) : Option Context :=
  x.dropKey.map fun x ↦ (x.allowKey true).push .comma

/-- The dash of an item, which outside brackets stands where a key may. -/
def item (x : Context) (start : Glyph) : Option Context :=
  if !x.inFlow && !x.keyAllowed then none
  else
    (x.openBlock .blockSequence start.column x.tokens.length).dropKey.map fun x ↦
      (x.allowKey true).push .item

/-- The mark before a key that is not simple. -/
def keyMark (x : Context) (start : Glyph) : Option Context :=
  if !x.inFlow && !x.keyAllowed then none
  else
    (x.openBlock .blockMapping start.column x.tokens.length).dropKey.map fun x ↦
      (x.allowKey !x.inFlow).push .key

/-- The colon of a value.  It makes the possible key a key, and perhaps the first one of a new
mapping. -/
def valueMark (x : Context) (start : Glyph) : Option Context :=
  match x.key with
  | some k =>
    let x := { x with key := none, tokens := x.tokens.insertIdx (x.tokens.length - k.index) .key }
    some (((x.openBlock .blockMapping k.start.column k.index).allowKey false).push .value)
  | none =>
    if x.inFlow then some ((x.allowKey false).push .value)
    else if x.keyAllowed then
      let x := x.openBlock .blockMapping start.column x.tokens.length
      some ((x.allowKey true).push .value)
    else none

/-- A node, or a mark of one, that may become a key. -/
def leaf (x : Context) (start : Glyph) (t : Token) : Option Context :=
  (x.saveKey start).map fun x ↦ (x.allowKey false).push t

/-- An anchor; its number counts the names that are known before it. -/
def anchor (x : Context) (start : Glyph) (name : String) : Option Context :=
  let number := x.anchors.length
  (x.leaf start (.anchor number)).map fun x ↦
    { x with anchors := (name, number) :: x.anchors.filter (·.1 ≠ name) }

/-- A reference to an anchor that must have come before. -/
def reference (x : Context) (start : Glyph) (name : String) : Option Context :=
  (x.anchors.lookup name).bind fun number ↦ x.leaf start (.reference number)

/-- A scalar that is no key; a key may follow it. -/
def block (x : Context) (form : ScalarForm) (text : List Char) : Option Context :=
  x.dropKey.map fun x ↦ (x.allowKey true).push (.scalar form (String.ofList text))

end Context

/-! ### Tokens -/

/-- A scalar that comes next and may become a key. -/
def keyScalar (x : Context) (g : Glyph) (gs : List Glyph) : Option (Context × List Glyph) :=
  let quoted (read : Option (List Char × List Glyph)) : Option (Context × List Glyph) :=
    read.bind fun (text, rest) ↦
      (x.leaf g (.scalar .quoted (String.ofList text))).map (·, rest)
  if g.char == '\x27' then quoted (singleTail .none gs)
  else if g.char == '\x22' then quoted (doubleTail .none gs)
  else if startsPlain x.inFlow g.char gs then
    match plainScalar x.inFlow x.indent .none (g :: gs) with
    | none => none
    | some (text, broken, rest) =>
      (x.leaf g (.scalar .plain (String.ofList text))).map fun x ↦ (x.allowKey broken, rest)
  else none

/-- A scalar in a block of its own. -/
def blockToken (x : Context) (form : ScalarForm) (gs : List Glyph) :
    Option (Context × List Glyph) :=
  match blockScalar (form == .folded) x.columns.head? gs with
  | none => none
  | some (text, rest) => (x.block form text).map (·, rest)

/-- The token that starts with `g`. -/
def nextToken (x : Context) (g : Glyph) (gs : List Glyph) : Option (Context × List Glyph) :=
  let one (x : Option Context) : Option (Context × List Glyph) := x.map (·, gs)
  if g.column == 0 && g.char == '%' then
    (directive? gs).bind fun (t, rest) ↦ (x.documentMark t).map (·, rest)
  else if atMarks '-' (g :: gs) then (x.documentMark .documentStart).map (·, gs.drop 2)
  else if atMarks '.' (g :: gs) then (x.documentMark .documentEnd).map (·, gs.drop 2)
  else match g.char with
    | '[' => one (x.openFlow .openBracket g)
    | '\x7b' => one (x.openFlow .openBrace g)
    | ']' => one (x.closeFlow .closeBracket)
    | '\x7d' => one (x.closeFlow .closeBrace)
    | ',' => one x.comma
    | '-' => if atSeparator gs then one (x.item g) else keyScalar x g gs
    | '?' => if x.inFlow || atSeparator gs then one (x.keyMark g) else keyScalar x g gs
    | ':' => if x.inFlow || atSeparator gs then one (x.valueMark g) else keyScalar x g gs
    | '*' => (anchorName? gs).bind fun (name, rest) ↦ (x.reference g name).map (·, rest)
    | '&' => (anchorName? gs).bind fun (name, rest) ↦ (x.anchor g name).map (·, rest)
    | '!' => (tag? x.inFlow gs).bind fun (name, rest) ↦ (x.leaf g (.tag name)).map (·, rest)
    | '|' => if x.inFlow then none else blockToken x .literal gs
    | '>' => if x.inFlow then none else blockToken x .folded gs
    | _ => keyScalar x g gs

/-- Skips what stands between tokens: blanks, comments, line breaks, and a byte order mark where
a line starts.  A tab indents nothing, so it may not stand where a key may.  Says whether a key
may stand at the next token. -/
def toToken (flow keyAllowed comment : Bool) : List Glyph → Bool × List Glyph
  | [] => (keyAllowed, [])
  | g :: gs =>
    if isBreak g.char then toToken flow (keyAllowed || !flow) false gs
    else if comment || g.char == '#' then toToken flow keyAllowed true gs
    else if g.char == ' ' || g.char == '\t' && (flow || !keyAllowed) ||
        g.char == '\uFEFF' && g.column == 0 then
      toToken flow keyAllowed false gs
    else (keyAllowed, g :: gs)

/-- The tokens of a text after those of the context. -/
def tokensFrom (x : Context) (gs : List Glyph) : Option (List Token) :=
  let (keyAllowed, next) := toToken x.inFlow x.keyAllowed false gs
  let x := x.allowKey keyAllowed
  match next with
  | [] => x.closeAll.dropKey.map (·.tokens.reverse)
  | g :: rest =>
    match (x.dropStale g).bind fun x ↦ nextToken (x.closeBlocks (g.column < ·)) g rest with
    | none => none
    | some (x, rest) => if rest.length < gs.length then tokensFrom x rest else none
termination_by gs.length

/-- The tokens of a text. -/
def Token.ofText? (text : String) : Option (List Token) :=
  let cs := normalBreaks text.toList
  if cs.all isAllowed then tokensFrom {} (Glyph.ofText cs) else none

end EnumForge.Yaml
