import EnumForge.Expansion.Attachment
import EnumForge.Expansion.Generator
import EnumForge.Grammar

/-!
# Expanding a source

Every generator attached to a top-level group runs on its own, for each of its attributes in turn.
The attributes go, and what was generated follows the group.  Attributes on groups further inside
stay where they are and are reported.
-/

namespace EnumForge

/-- A source with all generators run. -/
structure Expansion where
  source : String
  diagnostics : List Diagnostic

namespace Expansion

def hasErrors (e : Expansion) : Bool := e.diagnostics.any Diagnostic.isError

def errorCount (e : Expansion) : Nat := e.diagnostics.countP Diagnostic.isError

/-- The domain of what the expansion itself reports. -/
def domain : String := "aeg.host"

def failedNotice (e : ExpansionError) : Notice :=
  ⟨.error, ⟨domain, "expansionFailed"⟩, e.message⟩

def nestedNotice (name : String) : Notice :=
  ⟨.warning, ⟨domain, "nestedAttachment"⟩,
    "'@" ++ name ++ "' is only expanded on top-level declarations; move the type to file scope"⟩

/-- The conformance that a generator is asked for: none if the declaration lists it already. -/
def requestedConformances (d : Decl) (conformance : String) : List TypeRef :=
  if d.inheritance?.any (·.contains conformance) then []
  else match Token.identifier conformance with
    | .ok name => [.identifier name]
    | .error _ => []

/-- The extensions that an attribute brings, and what is reported about it: a failure brings none
and is reported after the generator's own diagnostics. -/
def runAttribute (r : Registry) (d : Decl) (a : Attribute) :
    List ExtensionDecl × List Diagnostic :=
  match r.get? a.name with
  | none => ([], [])
  | some g =>
    let outcome := g.run a d (requestedConformances d g.conformance)
    match outcome.result with
    | .ok extensions => (extensions, outcome.diagnostics)
    | .error e => ([], outcome.diagnostics ++ [Diagnostic.about a (failedNotice e)])

/-- A generated extension as an item of the file, after a blank line. -/
def extensionItem (e : ExtensionDecl) : Member :=
  ⟨.extension (Node.setLeading (Trivia.newlines 2) e), none⟩

/-- One report for each attached attribute on a group inside `d`. -/
def nestedDiagnostics (r : Registry) (d : Decl) : List Diagnostic :=
  d.nestedGroups.flatMap fun g ↦
    (g.attached r.contains).map fun a ↦ Diagnostic.about a (nestedNotice a.name)

/-- The items that an item becomes, and what is reported about it. -/
def expandItem (r : Registry) (m : Member) : List Member × List Diagnostic :=
  if m.decl.isGroup then
    let runs := (m.decl.attached r.contains).map (runAttribute r m.decl)
    let decl := m.decl.removeAttached r.contains
    ({ m with decl } :: (runs.flatMap Prod.fst).map extensionItem,
      runs.flatMap Prod.snd ++ nestedDiagnostics r decl)
  else ([m], [])

/-- Runs the generators attached in a file. -/
def ofFile (r : Registry) (file : SourceFile) : Expansion :=
  let expanded := file.items.map (expandItem r)
  ⟨Node.source { file with items := expanded.flatMap Prod.fst }, expanded.flatMap Prod.snd⟩

end Expansion

/-- Reads a source and runs the generators attached in it. -/
def expandSource (source : String) (r : Registry) : Except HostError Expansion :=
  match parseSource source with
  | .ok file => .ok (Expansion.ofFile r file)
  | .error e => .error (.parse e)

end EnumForge
