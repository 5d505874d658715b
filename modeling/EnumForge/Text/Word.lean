import EnumForge.Text.Alphabetic
import EnumForge.Text.Numeric

/-!
# Words

Which texts are keywords and which are identifiers of the Swift language.  A back-ticked
identifier may be any word, keywords included; the back-ticks are not part of its name.
-/

namespace EnumForge.Text

/-- The reserved words. -/
def keywords : List String :=
  ["as", "associatedtype", "break", "case", "catch", "class", "continue", "default", "defer",
   "deinit", "do", "else", "enum", "extension", "fallthrough", "false", "fileprivate", "for",
   "func", "guard", "if", "import", "in", "init", "inout", "internal", "is", "let", "nil",
   "operator", "private", "protocol", "public", "repeat", "rethrows", "return", "self", "Self",
   "static", "struct", "subscript", "super", "switch", "throw", "throws", "true", "try",
   "typealias", "var", "where", "while"]

def isKeyword (text : String) : Bool := keywords.contains text

/-- Whether a word may start with `c`. -/
def isWordStart (c : Char) : Bool := c == '_' || isAlphabetic c

/-- Whether a word may go on with `c`. -/
def isWordPart (c : Char) : Bool := c == '_' || isAlphabetic c || isNumeric c

/-- A nonempty run of word characters that does not start with a number. -/
def isWord : List Char → Bool
  | [] => false
  | c :: cs => isWordStart c && cs.all isWordPart

/-- The characters between an opening and a closing back-tick. -/
def unticked? : List Char → Option (List Char)
  | [] => none
  | c :: cs => if c = '\x60' ∧ cs.getLast? = some '\x60' then some cs.dropLast else none

/-- `text` without its enclosing back-ticks, if it has them. -/
def unticked (text : String) : String :=
  match unticked? text.toList with
  | some inner => String.ofList inner
  | none => text

/-- Whether `text` is an identifier: a word in back-ticks, or a plain word that is no keyword. -/
def isIdentifier (text : String) : Bool :=
  match unticked? text.toList with
  | some inner => isWord inner
  | none => !isKeyword text && isWord text.toList

end EnumForge.Text
