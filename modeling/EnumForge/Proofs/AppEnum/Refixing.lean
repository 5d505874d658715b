import EnumForge.Proofs.AppEnum.Fixing

/-!
# Fixing a fixed source

A source is settled when it can be read, no replacement is proposed for it, and fixing it changes
nothing.  This says no more than that it can be read and that no enum in it can be replaced.
-/

namespace EnumForge

namespace Settings

/-- Expands a source and makes the replacements that are proposed for it. -/
def fix (s : Settings) (source : String) : Except HostError String := do
  let e ← expandSource source s.registry
  applyFixIts source e.diagnostics

/-- Nothing is left to fix. -/
structure Settled (s : Settings) (source : String) : Prop where
  expands : ∃ e, expandSource source s.registry = .ok e ∧
    ∀ d ∈ e.diagnostics, d.id ≠ Catalog.replaceEnum.id
  fixed : s.fix source = .ok source

end Settings

/-- An attribute whose arguments stand on two lines. -/
def splitSource : String := "@AppEnumGenFixIt(\n) enum A \x7b case a \x7d"

theorem not_settled_splitSource :
    ∃ t, Settings.fix {} splitSource = .ok t ∧ ¬Settings.Settled {} t := by
  have hfix : ((Settings.fix {} splitSource).toOption.any fun t ↦
      (parseSource t).toOption.isNone) = true := by
    decide +kernel
  cases ht : Settings.fix {} splitSource with
  | error err => simp [ht, Except.toOption] at hfix
  | ok t =>
    refine ⟨t, rfl, fun hsettled ↦ ?_⟩
    obtain ⟨e, he, -⟩ := hsettled.expands
    obtain ⟨file, hfile, -⟩ := expandSource_eq_ok.1 he
    simp [ht, hfile, Except.toOption] at hfix

end EnumForge
