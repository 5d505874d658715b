/-!
# Trivia

The text between tokens: blanks, line breaks and comments, kept as a list of pieces.  Pieces are
added at the end, and two neighbours of the same blank kind become one, so a text without comments
has one representation.
-/

namespace EnumForge

/-- A piece of text that carries no meaning of its own. -/
inductive TriviaPiece where
  | spaces (n : Nat)
  | tabs (n : Nat)
  | newlines (n : Nat)
  | carriageReturns (n : Nat)
  /-- From `//` up to, and without, the end of the line. -/
  | lineComment (text : String)
  /-- From `/*` to `*/`, delimiters included. -/
  | blockComment (text : String)
  /-- U+FEFF at the very start of a file. -/
  | byteOrderMark
deriving DecidableEq, Repr

namespace TriviaPiece

def text : TriviaPiece → String
  | spaces n => String.ofList (List.replicate n ' ')
  | tabs n => String.ofList (List.replicate n '\t')
  | newlines n => String.ofList (List.replicate n '\n')
  | carriageReturns n => String.ofList (List.replicate n '\r')
  | lineComment text => text
  | blockComment text => text
  | byteOrderMark => "\uFEFF"

/-- The one piece that two neighbours of the same blank kind amount to. -/
def merge? : TriviaPiece → TriviaPiece → Option TriviaPiece
  | spaces a, spaces b => some (spaces (a + b))
  | tabs a, tabs b => some (tabs (a + b))
  | newlines a, newlines b => some (newlines (a + b))
  | carriageReturns a, carriageReturns b => some (carriageReturns (a + b))
  | _, _ => none

theorem text_merge? {p q merged : TriviaPiece} (h : p.merge? q = some merged) :
    merged.text = p.text ++ q.text := by
  cases p <;> cases q <;> simp [merge?] at h <;> subst h <;>
    simp [text, ← String.ofList_append, List.replicate_append_replicate]

def isNewline : TriviaPiece → Bool
  | newlines _ => true
  | _ => false

/-- Spaces and tabs, which make up an indentation. -/
def isIndent : TriviaPiece → Bool
  | spaces _ | tabs _ => true
  | _ => false

/-- Blanks that stay on a line: spaces, tabs and carriage returns. -/
def isBlank : TriviaPiece → Bool
  | spaces _ | tabs _ | carriageReturns _ => true
  | _ => false

end TriviaPiece

structure Trivia where
  pieces : List TriviaPiece
deriving DecidableEq, Repr

namespace Trivia

/-- No trivia at all. -/
def empty : Trivia := ⟨[]⟩

instance : Inhabited Trivia := ⟨empty⟩

def isEmpty (t : Trivia) : Bool := t.pieces.isEmpty

def text (t : Trivia) : String := String.join (t.pieces.map TriviaPiece.text)

@[simp] theorem text_empty : empty.text = "" := rfl

/-- `ps` with `p` at its end, merged into the last piece where both are the same kind of blank. -/
def pushPiece (p : TriviaPiece) : List TriviaPiece → List TriviaPiece
  | [] => [p]
  | [q] => match q.merge? p with
    | some merged => [merged]
    | none => [q, p]
  | q :: r :: ps => q :: pushPiece p (r :: ps)

def push (t : Trivia) (p : TriviaPiece) : Trivia := ⟨pushPiece p t.pieces⟩

@[simp] theorem text_push (t : Trivia) (p : TriviaPiece) :
    (t.push p).text = t.text ++ p.text := by
  obtain ⟨ps⟩ := t
  simp only [push, text]
  fun_induction pushPiece p ps with
  | case1 => simp
  | case2 q merged h => simp [TriviaPiece.text_merge? h]
  | case3 q h => simp
  | case4 q r ps ih => simp_all [String.append_assoc]

def ofPieces (ps : List TriviaPiece) : Trivia := ps.foldl push empty

/-- Adds a space or a tab; every other character is ignored. -/
def pushBlank (t : Trivia) : Char → Trivia
  | ' ' => t.push (.spaces 1)
  | '\t' => t.push (.tabs 1)
  | _ => t

/-- Adds the spaces and tabs of `indent` in their order. -/
def pushIndent (t : Trivia) (indent : String) : Trivia := indent.toList.foldl pushBlank t

def spaces (n : Nat) : Trivia := empty.push (.spaces n)

def newlines (n : Nat) : Trivia := empty.push (.newlines n)

/-- `n` line breaks followed by the spaces and tabs of `indent`. -/
def newlinesIndent (n : Nat) (indent : String) : Trivia := (newlines n).pushIndent indent

def newlineIndent (indent : String) : Trivia := newlinesIndent 1 indent

def hasNewline (t : Trivia) : Bool := t.pieces.any TriviaPiece.isNewline

/-- The spaces and tabs right after the last line break; none without a line break. -/
def indentation (t : Trivia) : Option String :=
  if t.hasNewline then
    let lastLine := (t.pieces.reverse.takeWhile fun p ↦ !p.isNewline).reverse
    some (String.join ((lastLine.takeWhile TriviaPiece.isIndent).map TriviaPiece.text))
  else none

/-- Without the spaces, tabs and carriage returns at the end; comments stay. -/
def trimmed (t : Trivia) : Trivia := ⟨(t.pieces.reverse.dropWhile TriviaPiece.isBlank).reverse⟩

end Trivia

end EnumForge
