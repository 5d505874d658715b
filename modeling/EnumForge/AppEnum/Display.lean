import EnumForge.AppEnum.Cases

/-!
# Display members

The two static members that make an enum conform to `AppEnum`: the name under which the type is
shown, and the mapping from its cases to the names under which they are shown.
-/

namespace EnumForge.Display

/-- One level of indentation in generated code. -/
def indentUnit : String := "    "

/-- One level of indentation in the style of `indent`: a tab where tabs are used. -/
def indentStep (indent : String) : String :=
  if indent.toList.contains '\t' then "\t" else indentUnit

/-- The generated members, without leading trivia. -/
structure Members where
  /-- `static var typeDisplayRepresentation: TypeDisplayRepresentation = "Name"` -/
  typeDisplay : BindingDecl
  /-- `static var caseDisplayRepresentations: [Name: DisplayRepresentation] = [...]` -/
  caseDisplay : BindingDecl

/-- `static var name: type = value`; the type carries the space before the equals sign. -/
def staticVar (name : Token) (type : TypeRef) (value : Expr) : BindingDecl where
  preamble := ⟨[], [⟨(Token.ofKeyword "static").spaced, none⟩]⟩
  keyword := (Token.ofKeyword "var").spaced
  nameToken := name
  typeClause := some ⟨Token.colon.spaced, type⟩
  initializer := some ⟨Token.equal.spaced, value⟩
  accessors := none

def typeDisplay (enumName : Token) : BindingDecl :=
  staticVar (.plain .identifier "typeDisplayRepresentation")
    (.identifier (Token.plain .identifier "TypeDisplayRepresentation").spaced)
    (.string (Token.stringLiteral enumName.name))

/-- The comma between an entry and the next: followed by a space where both share a line. -/
def separator (e next : CaseEntry) : Token :=
  if next.declaration = e.declaration then Token.comma.spaced else Token.comma

/-- `.name: "label"`, on a line of its own if it is the first of its case declaration. -/
def element (entryIndent : String) (startsLine : Bool) (e : CaseEntry) (next : Option CaseEntry) :
    Except ExpansionError DictionaryElement := do
  let period :=
    if startsLine then Token.period.withLeading (Trivia.newlineIndent entryIndent)
    else Token.period
  let name ← Token.identifier e.name.text
  return ⟨.implicitMember period name, Token.colon.spaced, .string (Token.stringLiteral e.label),
    next.map (separator e)⟩

/-- The entries of the mapping, where `previous` stands before them. -/
def elements (entryIndent : String) (previous : Option CaseEntry) :
    List CaseEntry → Except ExpansionError (List DictionaryElement)
  | [] => return []
  | e :: es => do
    let startsLine := previous.all fun p ↦ p.declaration != e.declaration
    let first ← element entryIndent startsLine e es.head?
    let rest ← elements entryIndent (some e) es
    return first :: rest

/-- The mapping from cases to labels, one line for each case declaration; `[:]` without cases. -/
def mapping (cases : List CaseEntry) (indent : String) : Except ExpansionError Expr :=
  if cases.isEmpty then
    .ok (.emptyDictionary Token.leftSquare Token.colon Token.rightSquare)
  else do
    let entries ← elements (indent ++ indentStep indent) none cases
    return .dictionary Token.leftSquare entries
      (Token.rightSquare.withLeading (Trivia.newlineIndent indent))

def caseDisplay (enumName : Token) (cases : List CaseEntry) (indent : String) :
    Except ExpansionError BindingDecl := do
  let key ← Token.identifier enumName.text
  let value ← mapping cases indent
  return staticVar (.plain .identifier "caseDisplayRepresentations")
    (.dictionary Token.leftSquare (.identifier key) Token.colon.spaced
      (.identifier (.plain .identifier "DisplayRepresentation")) Token.rightSquare.spaced)
    value

/-- Both members, for a place with the given indentation. -/
def members (enumName : Token) (cases : List CaseEntry) (indent : String) :
    Except ExpansionError Members := do
  return ⟨typeDisplay enumName, ← caseDisplay enumName cases indent⟩

/-- Both members of an enum. -/
def membersOf (d : NominalDecl) (indent : String) : Except ExpansionError Members :=
  members d.head.name d.block.cases indent

end EnumForge.Display
