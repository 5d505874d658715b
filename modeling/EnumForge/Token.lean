import EnumForge.Error
import EnumForge.Text.Word
import EnumForge.Trivia

/-!
# Tokens

A token is a piece of program text with the trivia around it.  Trailing trivia runs up to the end
of the line; the line break and all that follows lead the next token.
-/

namespace EnumForge

open Text (Span)

inductive TokenKind where
  | identifier
  | keyword
  | stringLiteral
  | numberLiteral
  /-- `#if`, `#available`, ... -/
  | poundKeyword
  | atSign
  | colon
  | comma
  | period
  | semicolon
  | equal
  | arrow
  | leftBrace
  | rightBrace
  | leftParen
  | rightParen
  | leftSquare
  | rightSquare
  | operator
  | endOfFile
deriving DecidableEq, Repr

namespace TokenKind

/-- Opens a parenthesised, bracketed or braced run. -/
def opens : TokenKind → Bool
  | leftBrace | leftParen | leftSquare => true
  | _ => false

/-- Closes a parenthesised, bracketed or braced run. -/
def closes : TokenKind → Bool
  | rightBrace | rightParen | rightSquare => true
  | _ => false

end TokenKind

structure Token where
  kind : TokenKind
  text : String
  leading : Trivia := .empty
  trailing : Trivia := .empty
  /-- The bytes of `text` in the source the token was read from. -/
  span : Option Span := none
deriving DecidableEq, Repr

namespace Token

/-- The whole text of the token, trivia included. -/
def source (t : Token) : String := t.leading.text ++ t.text ++ t.trailing.text

def isKeyword (t : Token) (text : String) : Bool := t.kind == .keyword && t.text == text

/-- Whether a line break stands before the token. -/
def startsLine (t : Token) : Bool := t.leading.hasNewline

/-- The text of an identifier without back-ticks. -/
def name (t : Token) : String := Text.unticked t.text

/-- A token without trivia and without a place. -/
def plain (kind : TokenKind) (text : String) : Token := { kind, text }

/-- Kind and text only. -/
def bare (t : Token) : Token := plain t.kind t.text

def withLeading (t : Token) (trivia : Trivia) : Token := { t with leading := trivia }

def withTrailing (t : Token) (trivia : Trivia) : Token := { t with trailing := trivia }

/-- Followed by a single space. -/
def spaced (t : Token) : Token := t.withTrailing (Trivia.spaces 1)

/-- Without a place in any source. -/
def detached (t : Token) : Token := { t with span := none }

/-- Where the token's text starts in its source. -/
def offset (t : Token) : Nat := (t.span.map Span.start).getD 0

/-! ### Building tokens -/

def ofKeyword (text : String) : Token := plain .keyword text

/-- An identifier token, refused if the text is no identifier. -/
def identifier (text : String) : Except ExpansionError Token :=
  if Text.isIdentifier text then .ok (plain .identifier text)
  else .error (.invalidIdentifier text)

/-- A quote or backslash is written with a backslash before it. -/
def escape : List Char → List Char
  | [] => []
  | c :: cs => if c = '\x22' ∨ c = '\\' then '\\' :: c :: escape cs else c :: escape cs

/-- The string literal that stands for `value`. -/
def stringLiteral (value : String) : Token :=
  plain .stringLiteral ("\"" ++ String.ofList (escape value.toList) ++ "\"")

def colon : Token := plain .colon ":"

def comma : Token := plain .comma ","

def period : Token := plain .period "."

def equal : Token := plain .equal "="

def leftBrace : Token := plain .leftBrace "\x7b"

def rightBrace : Token := plain .rightBrace "\x7d"

def leftSquare : Token := plain .leftSquare "["

def rightSquare : Token := plain .rightSquare "]"

end Token

end EnumForge
