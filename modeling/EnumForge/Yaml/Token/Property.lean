import EnumForge.Yaml.Number
import EnumForge.Yaml.Token

/-!
# Anchors, tags and directives

Marks that say something about a node or a document.
-/

namespace EnumForge.Yaml

open Glyph (atSeparator dropBlanks)

/-! ### Anchors -/

/-- The name of an anchor, or of a reference to one, after its mark. -/
def anchorName? (gs : List Glyph) : Option (String × List Glyph) :=
  let (name, rest) := Glyph.name gs
  if name.isEmpty then none
  else if rest.head?.all fun g ↦ isSeparator g.char || "?:,]\x7d%@`".toList.contains g.char then
    some (String.ofList name, rest)
  else none

/-! ### Tags -/

/-- Characters of tags; some of them only where no comma or bracket can end the tag. -/
def isTagChar (wide : Bool) (c : Char) : Bool :=
  isNameChar c || ";/?:@&=+$.%!~*'()".toList.contains c || wide && ",[]".toList.contains c

/-- How many bytes a character takes whose first byte is `n`. -/
def sequenceLength? (n : Nat) : Option Nat :=
  if n < 0x80 then some 1
  else if n < 0xC0 then none
  else if n < 0xE0 then some 2
  else if n < 0xF0 then some 3
  else if n < 0xF8 then some 4
  else none

/-- How many bytes of a character are still to come after the byte `n`, of which `owed` were to
come before it. -/
def owedAfter? (owed n : Nat) : Option Nat :=
  match owed with
  | 0 => (sequenceLength? n).map (· - 1)
  | owed + 1 => if 0x80 ≤ n ∧ n < 0xC0 then some owed else none

/-- Text with escaped bytes decoded one by one; whole characters must be escaped. -/
def unescapeBytes? (owed : Nat) : List Char → Option (List Char)
  | [] => if owed = 0 then some [] else none
  | '%' :: a :: b :: cs =>
    match natOfDigits? 16 [a, b] with
    | none => none
    | some n =>
      match owedAfter? owed n with
      | none => none
      | some owed => (unescapeBytes? owed cs).map (Char.ofNat n :: ·)
  | c :: cs => if owed = 0 ∧ c ≠ '%' then (unescapeBytes? 0 cs).map (c :: ·) else none

/-- The characters of a tag that come next. -/
def tagText? (wide : Bool) (gs : List Glyph) : Option (List Char × List Glyph) :=
  (unescapeBytes? 0 (Glyph.chars (gs.takeWhile fun g ↦ isTagChar wide g.char))).map
    (·, gs.dropWhile fun g ↦ isTagChar wide g.char)

/-- As `tagText?`, with one character at least. -/
def tagWord? (wide : Bool) (gs : List Glyph) : Option (List Char × List Glyph) :=
  (tagText? wide gs).filter fun (text, _) ↦ !text.isEmpty

/-- A tag after its exclamation mark: spelled out between angle brackets, after a handle that
ends in a second mark, or after the mark alone.  The mark may also be all there is. -/
def tagName? (gs : List Glyph) : Option (TagName × List Glyph) :=
  match gs with
  | ⟨'<', _, _, _⟩ :: gs =>
    match tagWord? true gs with
    | some (text, ⟨'>', _, _, _⟩ :: rest) => some (⟨"", String.ofList text⟩, rest)
    | _ => none
  | gs =>
    match Glyph.name gs with
    | (name, ⟨'!', _, _, _⟩ :: rest) =>
      (tagWord? false rest).map fun (text, rest) ↦
        (⟨"!" ++ String.ofList name ++ "!", String.ofList text⟩, rest)
    | (name, rest) =>
      (tagText? false rest).map fun (text, rest) ↦
        let suffix := String.ofList (name ++ text)
        (if suffix.isEmpty then ⟨"", "!"⟩ else ⟨"!", suffix⟩, rest)

/-- A tag ends at a separator, inside brackets also at a comma. -/
def tag? (flow : Bool) (gs : List Glyph) : Option (TagName × List Glyph) :=
  (tagName? gs).filter fun (_, rest) ↦
    atSeparator rest || flow && rest.head?.any (·.char == ',')

/-! ### Directives -/

/-- A number of at most nine digits. -/
def versionNumber? (gs : List Glyph) : Option (Nat × List Glyph) :=
  let digits := Glyph.chars (gs.takeWhile fun g ↦ g.char.isDigit)
  if 9 < digits.length then none
  else (natOfDigits? 10 digits).map (·, gs.dropWhile fun g ↦ g.char.isDigit)

/-- Two numbers with a point between them. -/
def version? (gs : List Glyph) : Option (Token × List Glyph) :=
  match versionNumber? (dropBlanks gs) with
  | some (major, ⟨'.', _, _, _⟩ :: rest) =>
    (versionNumber? rest).map fun (minor, rest) ↦ (.version major minor, rest)
  | _ => none

/-- A handle: an exclamation mark, or a name between two of them. -/
def handle? : List Glyph → Option (String × List Glyph)
  | ⟨'!', _, _, _⟩ :: gs =>
    match Glyph.name gs with
    | (name, ⟨'!', _, _, _⟩ :: rest) => some ("!" ++ String.ofList name ++ "!", rest)
    | (name, rest) => if name.isEmpty then some ("!", rest) else none
  | _ => none

/-- A handle and what it stands for. -/
def handleStem? (gs : List Glyph) : Option (Token × List Glyph) :=
  match handle? (dropBlanks gs) with
  | none => none
  | some (name, rest) =>
    if rest.head?.any fun g ↦ isBlank g.char then
      match tagWord? true (dropBlanks rest) with
      | some (stem, rest) =>
        if atSeparator rest then some (.handle name (String.ofList stem), rest) else none
      | none => none
    else none

/-- A directive after its percent sign.  It takes the whole line. -/
def directive? (gs : List Glyph) : Option (Token × List Glyph) :=
  let (name, rest) := Glyph.name gs
  let token? :=
    if !atSeparator rest then none
    else if name = "YAML".toList then version? rest
    else if name = "TAG".toList then handleStem? rest
    else none
  match token? with
  | none => none
  | some (token, rest) => (Glyph.afterLine? rest).map (token, ·)

end EnumForge.Yaml
