import EnumForge.Tree.Decl

/-!
# Paths to members

A member is found by positions: first among the items of a file, then among the members of the
block found there, and so on.
-/

namespace EnumForge

namespace Decl

/-- Replaces the members of a group. -/
def withMembers (members : List Member) : Decl → Decl
  | enum d => enum { d with block.members := members }
  | nominal d => nominal { d with block.members := members }
  | extension d => extension { d with block.members := members }
  | d => d

def members (d : Decl) : List Member := (d.block?.map MemberBlock.members).getD []

end Decl

namespace Member

/-- The member of `ms` at a path. -/
def find? : List Nat → List Member → Option Member
  | [], _ => none
  | [i], ms => ms[i]?
  | i :: path, ms => (ms[i]?).bind fun m ↦ find? path m.decl.members

/-- Puts `new` in the place of the member at a path; nothing happens if there is none. -/
def replace (new : Member) : List Nat → List Member → List Member
  | [], ms => ms
  | [i], ms => ms.set i new
  | i :: path, ms =>
    ms.modify i fun m ↦ { m with decl := m.decl.withMembers (replace new path m.decl.members) }

end Member

end EnumForge
