import EnumForge.AppEnum.Catalog
import EnumForge.AppEnum.Display
import EnumForge.Expansion.Generator

/-!
# Conformance by extension

`@AppEnumGen` leaves the enum alone and adds an extension that makes it conform.
-/

namespace EnumForge

/-- Runs a step on the attached enum; any other declaration is reported. -/
def onEnum (a : Attribute) (d : Decl) (step : NominalDecl → Outcome) : Outcome :=
  match d.enum? with
  | some e => step e
  | none => ⟨.ok [], [Diagnostic.about a Catalog.notAnEnum]⟩

namespace ConformanceExtension

def name : String := "AppEnumGen"

/-- `: Name`, as the only entry of an inheritance clause. -/
def soleConformance (conformance : Token) : InheritanceClause :=
  ⟨Token.colon.spaced, [⟨.identifier conformance.spaced, none⟩]⟩

/-- A generated binding with the given leading trivia, as a member. -/
def bindingMember (leading : Trivia) (b : BindingDecl) : Member :=
  ⟨.binding (Node.setLeading leading b), none⟩

/-- `extension Enum: Conformance` with both members, one blank line apart. -/
def build (d : NominalDecl) (conformance : String) : Except ExpansionError ExtensionDecl := do
  let members ← Display.membersOf d Display.indentUnit
  let extended ← Token.identifier d.head.name.text
  let conformance ← Token.identifier conformance
  return {
    head := {
      preamble := ⟨[], []⟩
      keyword := (Token.ofKeyword "extension").spaced
      extended := .identifier extended
      inheritance := some (soleConformance conformance)
      whereClause := none }
    block := {
      leftBrace := Token.leftBrace
      members := [
        bindingMember (Trivia.newlineIndent Display.indentUnit) members.typeDisplay,
        bindingMember (Trivia.newlinesIndent 2 Display.indentUnit) members.caseDisplay]
      rightBrace := Token.rightBrace.withLeading (Trivia.newlines 1) } }

def generator (conformance : String) : Generator where
  name := name
  conformance := conformance
  run a d _ := onEnum a d fun e ↦ ⟨(build e conformance).map fun x ↦ [x], []⟩

end ConformanceExtension

end EnumForge
