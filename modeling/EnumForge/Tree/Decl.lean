import EnumForge.Tree.Expr
import EnumForge.Tree.TypeRef

/-!
# Declarations

Enums, the other nominal types, extensions, enum cases and single bindings are told apart; every
other declaration or statement is kept as its tokens.  A declaration with a member block is a
*group*.
-/

namespace EnumForge

open Node (tokens mapTokensM)

/-- `@Name` or `@Name(arguments)`; the arguments include their parentheses. -/
structure Attribute where
  atSign : Token
  nameToken : Token
  arguments : Option (List Token)
deriving DecidableEq, Repr

namespace Attribute

instance : Node Attribute where
  tokens a := a.atSign :: a.nameToken :: tokens a.arguments
  mapTokensM f a :=
    return ⟨← f a.atSign, ← f a.nameToken, ← mapTokensM f a.arguments⟩

/-- The name without back-ticks. -/
def name (a : Attribute) : String := a.nameToken.name

end Attribute

/-- `public`, `static`, `private(set)`, ... -/
structure Modifier where
  name : Token
  detail : Option (List Token)
deriving DecidableEq, Repr

instance : Node Modifier where
  tokens m := m.name :: tokens m.detail
  mapTokensM f m := return ⟨← f m.name, ← mapTokensM f m.detail⟩

structure InheritedType where
  type : TypeRef
  comma : Option Token
deriving DecidableEq, Repr

instance : Node InheritedType where
  tokens i := tokens i.type ++ tokens i.comma
  mapTokensM f i := return ⟨← mapTokensM f i.type, ← mapTokensM f i.comma⟩

/-- `: String, Codable` -/
structure InheritanceClause where
  colon : Token
  types : List InheritedType
deriving DecidableEq, Repr

namespace InheritanceClause

instance : Node InheritanceClause where
  tokens c := c.colon :: tokens c.types
  mapTokensM f c := return ⟨← f c.colon, ← mapTokensM f c.types⟩

/-- Whether a type of that name is listed, plain or qualified. -/
def contains (c : InheritanceClause) (name : String) : Bool :=
  c.types.any fun i ↦ i.type.nominalName? == some name

end InheritanceClause

/-- `: Type` -/
structure TypeClause where
  colon : Token
  type : TypeRef
deriving DecidableEq, Repr

instance : Node TypeClause where
  tokens a := a.colon :: tokens a.type
  mapTokensM f a := return ⟨← f a.colon, ← mapTokensM f a.type⟩

/-- `= value` -/
structure Initializer where
  equal : Token
  value : Expr

instance : Node Initializer where
  tokens i := i.equal :: tokens i.value
  mapTokensM f i := return ⟨← f i.equal, ← mapTokensM f i.value⟩

/-- What stands before the keyword of a declaration. -/
structure Preamble where
  attributes : List Attribute
  modifiers : List Modifier
deriving DecidableEq, Repr

instance : Node Preamble where
  tokens p := tokens p.attributes ++ tokens p.modifiers
  mapTokensM f p := return ⟨← mapTokensM f p.attributes, ← mapTokensM f p.modifiers⟩

/-- One name of a case list: `a`, `b(Int)`, `c = "c"`. -/
structure CaseElement where
  name : Token
  associatedValue : Option (List Token)
  rawValue : Option Initializer
  comma : Option Token

instance : Node CaseElement where
  tokens e := e.name :: (tokens e.associatedValue ++ tokens e.rawValue ++ tokens e.comma)
  mapTokensM f e :=
    return ⟨← f e.name, ← mapTokensM f e.associatedValue, ← mapTokensM f e.rawValue,
      ← mapTokensM f e.comma⟩

structure CaseDecl where
  preamble : Preamble
  keyword : Token
  elements : List CaseElement

instance : Node CaseDecl where
  tokens d := tokens d.preamble ++ d.keyword :: tokens d.elements
  mapTokensM f d :=
    return ⟨← mapTokensM f d.preamble, ← f d.keyword, ← mapTokensM f d.elements⟩

/-- A `var` or `let` of one name. -/
structure BindingDecl where
  preamble : Preamble
  keyword : Token
  nameToken : Token
  typeClause : Option TypeClause
  initializer : Option Initializer
  accessors : Option (List Token)

namespace BindingDecl

instance : Node BindingDecl where
  tokens d := tokens d.preamble ++ d.keyword :: d.nameToken ::
    (tokens d.typeClause ++ tokens d.initializer ++ tokens d.accessors)
  mapTokensM f d :=
    return ⟨← mapTokensM f d.preamble, ← f d.keyword, ← f d.nameToken,
      ← mapTokensM f d.typeClause, ← mapTokensM f d.initializer, ← mapTokensM f d.accessors⟩

/-- The name without back-ticks. -/
def name (d : BindingDecl) : String := d.nameToken.name

def isStatic (d : BindingDecl) : Bool := d.preamble.modifiers.any (·.name.text == "static")

end BindingDecl

/-- A declaration that is not looked into. -/
structure RawDecl where
  preamble : Preamble
  body : List Token

instance : Node RawDecl where
  tokens d := tokens d.preamble ++ d.body
  mapTokensM f d := return ⟨← mapTokensM f d.preamble, ← d.body.mapM f⟩

/-- A nominal type up to its member block. -/
structure NominalHead where
  preamble : Preamble
  keyword : Token
  name : Token
  generics : Option (List Token)
  inheritance : Option InheritanceClause
  whereClause : Option (List Token)

instance : Node NominalHead where
  tokens h := tokens h.preamble ++ h.keyword :: h.name ::
    (tokens h.generics ++ tokens h.inheritance ++ tokens h.whereClause)
  mapTokensM f h :=
    return ⟨← mapTokensM f h.preamble, ← f h.keyword, ← f h.name, ← mapTokensM f h.generics,
      ← mapTokensM f h.inheritance, ← mapTokensM f h.whereClause⟩

/-- Changes the last token before the place of the inheritance clause: the end of the generic
clause, or the name. -/
def NominalHead.modifyNameEnd (f : Token → Token) (h : NominalHead) : NominalHead :=
  match h.generics with
  | some (t :: ts) => { h with generics := some ((t :: ts).modify ts.length f) }
  | _ => { h with name := f h.name }

/-- The last token before the place of the inheritance clause. -/
def NominalHead.nameEnd (h : NominalHead) : Token := (h.generics.bind List.getLast?).getD h.name

/-- An extension up to its member block. -/
structure ExtensionHead where
  preamble : Preamble
  keyword : Token
  extended : TypeRef
  inheritance : Option InheritanceClause
  whereClause : Option (List Token)

instance : Node ExtensionHead where
  tokens h := tokens h.preamble ++ h.keyword ::
    (tokens h.extended ++ tokens h.inheritance ++ tokens h.whereClause)
  mapTokensM f h :=
    return ⟨← mapTokensM f h.preamble, ← f h.keyword, ← mapTokensM f h.extended,
      ← mapTokensM f h.inheritance, ← mapTokensM f h.whereClause⟩

mutual

inductive Decl where
  | enum (decl : NominalDecl)
  /-- A `struct`, `class`, `actor` or `protocol`. -/
  | nominal (decl : NominalDecl)
  | extension (decl : ExtensionDecl)
  | enumCase (decl : CaseDecl)
  | binding (decl : BindingDecl)
  | raw (decl : RawDecl)

structure NominalDecl where
  head : NominalHead
  block : MemberBlock

structure ExtensionDecl where
  head : ExtensionHead
  block : MemberBlock

structure MemberBlock where
  leftBrace : Token
  members : List Member
  rightBrace : Token

/-- A declaration with the semicolon after it, if there is one. -/
structure Member where
  decl : Decl
  semicolon : Option Token

end

mutual

def Decl.tokens : Decl → List Token
  | .enum d => d.tokens
  | .nominal d => d.tokens
  | .extension d => d.tokens
  | .enumCase d => Node.tokens d
  | .binding d => Node.tokens d
  | .raw d => Node.tokens d

def NominalDecl.tokens : NominalDecl → List Token
  | ⟨head, block⟩ => Node.tokens head ++ block.tokens

def ExtensionDecl.tokens : ExtensionDecl → List Token
  | ⟨head, block⟩ => Node.tokens head ++ block.tokens

def MemberBlock.tokens : MemberBlock → List Token
  | ⟨left, members, right⟩ => left :: (Member.listTokens members ++ [right])

def Member.tokens : Member → List Token
  | ⟨decl, semicolon⟩ => decl.tokens ++ Node.tokens semicolon

def Member.listTokens : List Member → List Token
  | [] => []
  | m :: ms => m.tokens ++ Member.listTokens ms

end

mutual

def Decl.mapTokensM {m : Type → Type} [Monad m] (f : Token → m Token) : Decl → m Decl
  | .enum d => return .enum (← d.mapTokensM f)
  | .nominal d => return .nominal (← d.mapTokensM f)
  | .extension d => return .extension (← d.mapTokensM f)
  | .enumCase d => return .enumCase (← Node.mapTokensM f d)
  | .binding d => return .binding (← Node.mapTokensM f d)
  | .raw d => return .raw (← Node.mapTokensM f d)

def NominalDecl.mapTokensM {m : Type → Type} [Monad m] (f : Token → m Token) :
    NominalDecl → m NominalDecl
  | ⟨head, block⟩ => return ⟨← Node.mapTokensM f head, ← block.mapTokensM f⟩

def ExtensionDecl.mapTokensM {m : Type → Type} [Monad m] (f : Token → m Token) :
    ExtensionDecl → m ExtensionDecl
  | ⟨head, block⟩ => return ⟨← Node.mapTokensM f head, ← block.mapTokensM f⟩

def MemberBlock.mapTokensM {m : Type → Type} [Monad m] (f : Token → m Token) :
    MemberBlock → m MemberBlock
  | ⟨left, members, right⟩ => return ⟨← f left, ← Member.listMapTokensM f members, ← f right⟩

def Member.mapTokensM {m : Type → Type} [Monad m] (f : Token → m Token) : Member → m Member
  | ⟨decl, semicolon⟩ => return ⟨← decl.mapTokensM f, ← Node.mapTokensM f semicolon⟩

def Member.listMapTokensM {m : Type → Type} [Monad m] (f : Token → m Token) :
    List Member → m (List Member)
  | [] => return []
  | x :: xs => return (← x.mapTokensM f) :: (← Member.listMapTokensM f xs)

end

instance : Node Decl := ⟨Decl.tokens, Decl.mapTokensM⟩

instance : Node NominalDecl := ⟨NominalDecl.tokens, NominalDecl.mapTokensM⟩

instance : Node ExtensionDecl := ⟨ExtensionDecl.tokens, ExtensionDecl.mapTokensM⟩

instance : Node MemberBlock := ⟨MemberBlock.tokens, MemberBlock.mapTokensM⟩

instance : Node Member := ⟨Member.tokens, Member.mapTokensM⟩

namespace Decl

def preamble : Decl → Preamble
  | enum d => d.head.preamble
  | nominal d => d.head.preamble
  | extension d => d.head.preamble
  | enumCase d => d.preamble
  | binding d => d.preamble
  | raw d => d.preamble

def attributes (d : Decl) : List Attribute := d.preamble.attributes

def withAttributes (attributes : List Attribute) : Decl → Decl
  | enum d => enum { d with head.preamble.attributes := attributes }
  | nominal d => nominal { d with head.preamble.attributes := attributes }
  | extension d => extension { d with head.preamble.attributes := attributes }
  | enumCase d => enumCase { d with preamble.attributes := attributes }
  | binding d => binding { d with preamble.attributes := attributes }
  | raw d => raw { d with preamble.attributes := attributes }

def inheritance? : Decl → Option InheritanceClause
  | enum d => d.head.inheritance
  | nominal d => d.head.inheritance
  | extension d => d.head.inheritance
  | _ => none

def block? : Decl → Option MemberBlock
  | enum d => some d.block
  | nominal d => some d.block
  | extension d => some d.block
  | _ => none

/-- Whether the declaration has a member block. -/
def isGroup (d : Decl) : Bool := d.block?.isSome

def isEnumCase : Decl → Bool
  | enumCase _ => true
  | _ => false

def enumCase? : Decl → Option CaseDecl
  | enumCase d => some d
  | _ => none

def enum? : Decl → Option NominalDecl
  | enum d => some d
  | _ => none

/-- The kind of declaration as one would name it. -/
def kindName : Decl → String
  | enum _ => "enum"
  | nominal d => d.head.keyword.text
  | extension _ => "extension"
  | enumCase _ => "case"
  | binding d => d.keyword.text
  | raw _ => "declaration"

end Decl

/-- A source read as a whole; the end of the file carries the trivia after the last item. -/
structure SourceFile where
  items : List Member
  endOfFile : Token

instance : Node SourceFile where
  tokens s := tokens s.items ++ [s.endOfFile]
  mapTokensM f s := return ⟨← mapTokensM f s.items, ← f s.endOfFile⟩

end EnumForge
