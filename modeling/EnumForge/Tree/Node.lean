import EnumForge.Token

/-!
# Nodes of the tree

Every part of a source tree is a node: it lists its tokens in source order, and it can be walked
with a function that changes each token in turn.  Text, span and trivia of a node are read off its
tokens, and every edit goes through the walk, so an edit never touches anything but tokens.
-/

namespace EnumForge

open Text (Span)

class Node (α : Type) where
  /-- The tokens in source order. -/
  tokens : α → List Token
  /-- The node with each token replaced, in source order. -/
  mapTokensM {m : Type → Type} [Monad m] (f : Token → m Token) : α → m α

namespace Node

instance : Node Token where
  tokens t := [t]
  mapTokensM f := f

instance {α : Type} [Node α] : Node (Option α) where
  tokens
    | none => []
    | some a => tokens a
  mapTokensM f
    | none => pure none
    | some a => return some (← mapTokensM f a)

instance {α : Type} [Node α] : Node (List α) where
  tokens := List.flatMap tokens
  mapTokensM f := List.mapM (mapTokensM f)

variable {α : Type} [Node α]

/-! ### What is read off the tokens -/

/-- The text of the node, all trivia included. -/
def source (a : α) : String := String.join ((tokens a).map Token.source)

/-- The text from the first to the last token, trivia around them left out. -/
def trimmedTokens : List Token → String
  | [] => ""
  | [t] => t.text
  | t :: u :: ts => t.text ++ t.trailing.text ++ u.leading.text ++ trimmedTokens (u :: ts)

/-- The text without the first token's leading and the last token's trailing trivia. -/
def trimmed (a : α) : String := trimmedTokens (tokens a)

/-- The bytes of the source that the tokens cover, if any of them has a place. -/
def span (a : α) : Option Span :=
  match (tokens a).filterMap Token.span with
  | [] => none
  | s :: ss => some (ss.foldl Span.union s)

def leading (a : α) : Trivia := ((tokens a).head?.map Token.leading).getD .empty

def trailing (a : α) : Trivia := ((tokens a).getLast?.map Token.trailing).getD .empty

/-- The indentation of the line that the node starts; empty in the middle of a line. -/
def indentation (a : α) : String := (leading a).indentation.getD ""

/-! ### Edits -/

/-- The next token of a supply, or the old one when the supply is used up. -/
def takeToken (old : Token) : StateM (List Token) Token := do
  match ← get with
  | [] => return old
  | t :: ts =>
    set ts
    return t

/-- The node with its tokens replaced, one by one, by those of `ts`. -/
def withTokens (a : α) (ts : List Token) : α := ((mapTokensM takeToken a).run ts).1

def mapTokens (f : Token → Token) (a : α) : α := Id.run (mapTokensM (fun t ↦ pure (f t)) a)

/-- Changes the `i`-th token; nothing happens if there is none. -/
def modifyToken (i : Nat) (f : Token → Token) (a : α) : α :=
  withTokens a ((tokens a).modify i f)

def setLeading (trivia : Trivia) (a : α) : α := modifyToken 0 (·.withLeading trivia) a

def setTrailing (trivia : Trivia) (a : α) : α :=
  modifyToken ((tokens a).length - 1) (·.withTrailing trivia) a

/-- Without the blanks after the last token. -/
def trimTrailing (a : α) : α := setTrailing (trailing a).trimmed a

/-- Without places in any source. -/
def detach (a : α) : α := mapTokens Token.detached a

end Node

end EnumForge
