import EnumForge.Tree.Decl

/-!
# Attached attributes

Taking attributes off a declaration, and finding the groups below the top level, where attributes
stay.  When an attribute goes, the token after it takes over its leading trivia if it starts a
line, so comments above the attribute stay above the declaration.
-/

namespace EnumForge

namespace Decl

/-- Takes the `i`-th attribute off. -/
def removeAttribute (i : Nat) (d : Decl) : Decl :=
  match d.attributes[i]? with
  | none => d
  | some removed =>
    Node.modifyToken (Node.tokens (d.attributes.take i)).length
      (fun t ↦ if t.startsLine then t.withLeading (Node.leading removed) else t)
      (d.withAttributes (d.attributes.eraseIdx i))

/-- Takes the first attribute off whose name passes the test. -/
def removeFirst (test : String → Bool) (d : Decl) : Decl :=
  match d.attributes.findIdx? (fun a ↦ test a.name) with
  | some i => d.removeAttribute i
  | none => d

/-- The attributes whose name passes the test. -/
def attached (test : String → Bool) (d : Decl) : List Attribute :=
  d.attributes.filter fun a ↦ test a.name

/-- Takes all those attributes off, one after the other. -/
def removeAttached (test : String → Bool) (d : Decl) : Decl :=
  (d.attached test).foldl (fun d _ ↦ d.removeFirst test) d

end Decl

mutual

/-- The groups inside the declaration, each before those inside it. -/
def Decl.nestedGroups : Decl → List Decl
  | .enum d => d.nestedGroups
  | .nominal d => d.nestedGroups
  | .extension d => d.nestedGroups
  | .enumCase _ | .binding _ | .raw _ => []

def NominalDecl.nestedGroups : NominalDecl → List Decl
  | ⟨_, block⟩ => block.nestedGroups

def ExtensionDecl.nestedGroups : ExtensionDecl → List Decl
  | ⟨_, block⟩ => block.nestedGroups

def MemberBlock.nestedGroups : MemberBlock → List Decl
  | ⟨_, members, _⟩ => Member.listGroups members

/-- The member, if it is a group, and the groups inside it. -/
def Member.groups : Member → List Decl
  | ⟨decl, _⟩ => (if decl.isGroup then [decl] else []) ++ decl.nestedGroups

def Member.listGroups : List Member → List Decl
  | [] => []
  | m :: ms => m.groups ++ Member.listGroups ms

end

end EnumForge
