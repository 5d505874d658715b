import EnumForge.Tree.Node

/-!
# Expressions

String literals, implicit members and dictionary literals are told apart; every other expression
is kept as its tokens.
-/

namespace EnumForge

mutual

inductive Expr where
  | string (literal : Token)
  /-- `.name` -/
  | implicitMember (period name : Token)
  /-- `[:]` -/
  | emptyDictionary (leftSquare colon rightSquare : Token)
  /-- `[a: b, c: d]` -/
  | dictionary (leftSquare : Token) (elements : List DictionaryElement) (rightSquare : Token)
  | raw (tokens : List Token)

structure DictionaryElement where
  key : Expr
  colon : Token
  value : Expr
  comma : Option Token

end

mutual

def Expr.tokens : Expr → List Token
  | .string literal => [literal]
  | .implicitMember period name => [period, name]
  | .emptyDictionary left colon right => [left, colon, right]
  | .dictionary left elements right =>
    left :: (DictionaryElement.listTokens elements ++ [right])
  | .raw ts => ts

def DictionaryElement.tokens : DictionaryElement → List Token
  | ⟨key, colon, value, comma⟩ =>
    key.tokens ++ colon :: (value.tokens ++ Node.tokens comma)

def DictionaryElement.listTokens : List DictionaryElement → List Token
  | [] => []
  | e :: es => e.tokens ++ DictionaryElement.listTokens es

end

mutual

def Expr.mapTokensM {m : Type → Type} [Monad m] (f : Token → m Token) : Expr → m Expr
  | .string literal => return .string (← f literal)
  | .implicitMember period name => return .implicitMember (← f period) (← f name)
  | .emptyDictionary left colon right =>
    return .emptyDictionary (← f left) (← f colon) (← f right)
  | .dictionary left elements right =>
    return .dictionary (← f left) (← DictionaryElement.listMapTokensM f elements) (← f right)
  | .raw ts => return .raw (← ts.mapM f)

def DictionaryElement.mapTokensM {m : Type → Type} [Monad m] (f : Token → m Token) :
    DictionaryElement → m DictionaryElement
  | ⟨key, colon, value, comma⟩ =>
    return ⟨← key.mapTokensM f, ← f colon, ← value.mapTokensM f, ← Node.mapTokensM f comma⟩

def DictionaryElement.listMapTokensM {m : Type → Type} [Monad m] (f : Token → m Token) :
    List DictionaryElement → m (List DictionaryElement)
  | [] => return []
  | e :: es => return (← e.mapTokensM f) :: (← DictionaryElement.listMapTokensM f es)

end

instance : Node Expr := ⟨Expr.tokens, Expr.mapTokensM⟩

instance : Node DictionaryElement := ⟨DictionaryElement.tokens, DictionaryElement.mapTokensM⟩

end EnumForge
