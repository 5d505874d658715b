import EnumForge.AppEnum.Cases
import EnumForge.Yaml.Writer

/-!
# Enum summaries

The top-level enums of a file with their attributes, cases and inherited types, as JSON or YAML.
Fields stand in alphabetical order.
-/

namespace EnumForge

structure EnumSummary where
  attributes : List String
  cases : List String
  inheritance : List String
  name : String
deriving DecidableEq, Repr

namespace EnumSummary

def ofEnum (d : NominalDecl) : EnumSummary where
  attributes := d.head.preamble.attributes.map Attribute.name
  cases := d.block.cases.map CaseEntry.label
  inheritance := ((d.head.inheritance.map InheritanceClause.types).getD []).map fun i ↦
    Node.trimmed i.type
  name := d.head.name.name

def ofFile (file : SourceFile) : List EnumSummary :=
  (file.items.filterMap fun m ↦ m.decl.enum?).map ofEnum

/-! ### JSON -/

def jsonEscape (c : Char) : String :=
  let n := c.toNat
  if c = '\x22' then "\\\""
  else if c = '\\' then "\\\\"
  else if c = '\n' then "\\n"
  else if c = '\r' then "\\r"
  else if c = '\t' then "\\t"
  else if n = 8 then "\\b"
  else if n = 12 then "\\f"
  else if n < 0x20 then "\\u00" ++ Text.copies (if n < 16 then 1 else 0) '0' ++
    String.ofList (Nat.toDigits 16 n)
  else String.singleton c

def jsonString (text : String) : String :=
  "\"" ++ String.join (text.toList.map jsonEscape) ++ "\""

/-- Items between brackets, each on lines of its own that are indented by two more spaces. -/
def jsonBlock (left right indent : String) (items : List String) : String :=
  if items.isEmpty then left ++ right
  else
    let inner := indent ++ "  "
    left ++ "\n" ++ inner ++ (",\n" ++ inner).intercalate items ++ "\n" ++ indent ++ right

def jsonField (key value : String) : String := jsonString key ++ ": " ++ value

def jsonList (indent : String) (texts : List String) : String :=
  jsonBlock "[" "]" indent (texts.map jsonString)

def jsonRecord (indent : String) (s : EnumSummary) : String :=
  let inner := indent ++ "  "
  jsonBlock "\x7b" "\x7d" indent
    [jsonField "attributes" (jsonList inner s.attributes),
      jsonField "cases" (jsonList inner s.cases),
      jsonField "inheritance" (jsonList inner s.inheritance),
      jsonField "name" (jsonString s.name)]

def toJson (summaries : List EnumSummary) : String :=
  jsonBlock "\x7b" "\x7d" ""
    [jsonField "enums" (jsonBlock "[" "]" "  " (summaries.map (jsonRecord "    ")))] ++ "\n"

/-! ### YAML -/

/-- A scalar after `before`. -/
def yamlScalar (before text : String) : String := before ++ Yaml.scalarText "    " text

def yamlList (key : String) (texts : List String) : List String :=
  if texts.isEmpty then [key ++ ": []"]
  else (key ++ ":") :: texts.map (yamlScalar "  - ")

def yamlRecord (s : EnumSummary) : List String :=
  yamlList "- attributes" s.attributes ++ yamlList "  cases" s.cases ++
    yamlList "  inheritance" s.inheritance ++ [yamlScalar "  name: " s.name]

def toYaml (summaries : List EnumSummary) : String :=
  let lines :=
    if summaries.isEmpty then ["enums: []"] else "enums:" :: summaries.flatMap yamlRecord
  String.join (lines.map (· ++ "\n"))

end EnumSummary

end EnumForge
