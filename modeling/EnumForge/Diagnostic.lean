import EnumForge.Tree.Decl

/-!
# Diagnostics

What is reported about a source: a message with an identifier that tools can filter by, the place
it is about, and the edits it proposes.  A proposed edit is never made by itself.
-/

namespace EnumForge

open Text (Span)

inductive Severity where
  | error
  | warning
deriving DecidableEq, Repr

/-- A message is known by its domain and its name within the domain. -/
structure MessageId where
  domain : String
  id : String
deriving DecidableEq, Repr

def MessageId.text (m : MessageId) : String := m.domain ++ "." ++ m.id

/-- A message that can be reported anywhere. -/
structure Notice where
  severity : Severity
  id : MessageId
  message : String
deriving DecidableEq, Repr

/-- Puts one declaration in the place of another. -/
structure Replacement where
  old : Decl
  new : Decl

structure FixIt where
  message : String
  id : MessageId
  changes : List Replacement

structure Diagnostic where
  severity : Severity
  id : MessageId
  message : String
  /-- The part of the source it is about. -/
  span : Option Span
  fixIts : List FixIt

namespace Diagnostic

/-- Reports a notice about a node. -/
def about {α : Type} [Node α] (node : α) (notice : Notice) : Diagnostic :=
  ⟨notice.severity, notice.id, notice.message, Node.span node, []⟩

def withFixIt (d : Diagnostic) (f : FixIt) : Diagnostic := { d with fixIts := d.fixIts ++ [f] }

def isError (d : Diagnostic) : Bool := d.severity == .error

end Diagnostic

end EnumForge
