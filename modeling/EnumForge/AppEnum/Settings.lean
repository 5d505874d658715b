import EnumForge.AppEnum.Replacement

/-!
# Settings

What a project can choose, and the generators set up accordingly.
-/

namespace EnumForge

structure Settings where
  /-- The protocol that the generated members belong to. -/
  conformance : String := "AppEnum"
  /-- Whether a proposed replacement adds the conformance to an enum without any clause. -/
  insertMissingInheritance : Bool := false
deriving DecidableEq, Repr

namespace Settings

/-- The attributes that attach a generator. -/
def provided : List String := [ConformanceExtension.name, EnumReplacement.name]

def registry (s : Settings) : Registry :=
  Registry.ofList [ConformanceExtension.generator s.conformance,
    EnumReplacement.generator s.conformance s.insertMissingInheritance]

end Settings

end EnumForge
