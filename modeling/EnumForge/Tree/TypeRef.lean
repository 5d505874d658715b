import EnumForge.Tree.Node

/-!
# Type references

Plain names and dictionary types are told apart; every other type is kept as its tokens.
-/

namespace EnumForge

inductive TypeRef where
  /-- `String`, `AppEnum` -/
  | identifier (name : Token)
  /-- `[Key: Value]` -/
  | dictionary (leftSquare : Token) (key : TypeRef) (colon : Token) (value : TypeRef)
      (rightSquare : Token)
  /-- `Foo.Bar`, `Array<Int>`, `@unchecked Sendable`, ... -/
  | raw (tokens : List Token)
deriving DecidableEq, Repr

namespace TypeRef

def tokens : TypeRef → List Token
  | identifier name => [name]
  | dictionary left key colon value right =>
    left :: (key.tokens ++ colon :: (value.tokens ++ [right]))
  | raw ts => ts

def mapTokensM {m : Type → Type} [Monad m] (f : Token → m Token) : TypeRef → m TypeRef
  | identifier name => return identifier (← f name)
  | dictionary left key colon value right =>
    return dictionary (← f left) (← key.mapTokensM f) (← f colon) (← value.mapTokensM f)
      (← f right)
  | raw ts => return raw (← ts.mapM f)

instance : Node TypeRef := ⟨tokens, mapTokensM⟩

/-- Names and points in turn, with a name first and last; the result is the last name. -/
def memberPath? : List Token → Option Token
  | [] => none
  | [t] => if t.kind = .identifier then some t else none
  | t :: p :: ts => if t.kind = .identifier ∧ p.kind = .period then memberPath? ts else none

/-- The name of a plain type. -/
def identifierName? : TypeRef → Option String
  | identifier name => some name.name
  | _ => none

/-- The last name of a plain or qualified type: `AppEnum` for `AppEnum` and `SwiftUI.AppEnum`. -/
def nominalName? : TypeRef → Option String
  | identifier name => some name.name
  | raw ts => (memberPath? ts).map Token.name
  | dictionary .. => none

end TypeRef

end EnumForge
