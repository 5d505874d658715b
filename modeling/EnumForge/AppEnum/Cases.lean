import EnumForge.Tree.Decl

/-!
# The cases of an enum

The case names of a member block, in source order.  A name remembers which case declaration it
was listed in, so that generated code can keep the same lines.
-/

namespace EnumForge

structure CaseEntry where
  /-- The name as written, back-ticks included, without trivia. -/
  name : Token
  /-- The position of its declaration among the case declarations of the block. -/
  declaration : Nat
deriving DecidableEq, Repr

namespace CaseEntry

/-- The name without back-ticks. -/
def label (e : CaseEntry) : String := e.name.name

end CaseEntry

/-- The case declarations of a block; other members are skipped. -/
def MemberBlock.caseDecls (b : MemberBlock) : List CaseDecl :=
  b.members.filterMap fun m ↦ m.decl.enumCase?

def MemberBlock.cases (b : MemberBlock) : List CaseEntry :=
  b.caseDecls.zipIdx.flatMap fun (d, i) ↦ d.elements.map fun e ↦ ⟨e.name.bare, i⟩

end EnumForge
