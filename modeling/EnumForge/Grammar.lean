import EnumForge.Grammar.Item
import EnumForge.Token.Lexer

/-!
# Reading sources

A source is read into a tree that keeps every token: only the declarations that matter here are
looked into, and the rest stays raw, so the tree prints back as the source it came from.
-/

namespace EnumForge

open Text (LineColumn)

namespace Grammar

/-- The items of a whole file; a closing brace has no place outside a block. -/
def fileItems (ts : List Token) : Reading (List Member) := do
  let list ← items ts
  match list.rest with
  | [] => return list.members
  | t :: ts => throw (unexpected "a declaration" (t :: ts))

/-- The file that `source` spells; failures are placed at byte offsets. -/
def file (source : String) : Reading SourceFile := do
  let stream ← TokenStream.ofSource source
  return ⟨← fileItems stream.tokens, stream.endOfFile⟩

end Grammar

/-- Reads a source file. -/
def parseSource (source : String) : Except (ParseError LineColumn) SourceFile :=
  (Grammar.file source).mapError (·.locate source)

/-- Reads exactly one declaration; a semicolon after it is dropped. -/
def parseDecl (source : String) : Except (ParseError LineColumn) Decl := do
  match (← parseSource source).items with
  | [m] => return m.decl
  | ms => throw (.declarationCount ms.length)

end EnumForge
