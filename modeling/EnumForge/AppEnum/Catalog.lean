import EnumForge.Diagnostic

/-!
# Messages of the generators
-/

namespace EnumForge.Catalog

def domain : String := "de.amaider.SwiftMacros"

/-- The attribute stands on something else than an enum. -/
def notAnEnum : Notice :=
  ⟨.error, ⟨domain, "notAnEnum"⟩, "'@AppEnumGen' can only be applied to an 'enum'"⟩

/-- There was no inheritance clause to extend. -/
def updatedInheritancesIsNil : Notice :=
  ⟨.error, ⟨domain, "updatedInheritancesIsNil"⟩, "Somehow updatedInheritances is nil"⟩

/-- A replacement of the enum is proposed. -/
def replaceEnum : Notice :=
  ⟨.warning, ⟨domain, "replaceEnum"⟩, "Replace the enum with the macro expansion"⟩

/-- All messages. -/
def notices : List Notice := [notAnEnum, updatedInheritancesIsNil, replaceEnum]

def fixItId : MessageId := ⟨"AmaiderMacroFixIt", replaceEnum.id.id⟩

/-- The fix-it that goes with `replaceEnum`. -/
def fixIt (old new : Decl) : FixIt := ⟨"Update AppEnum", fixItId, [⟨old, new⟩]⟩

end EnumForge.Catalog
