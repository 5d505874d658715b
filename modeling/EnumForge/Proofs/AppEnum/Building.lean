import EnumForge.AppEnum.Replacement

/-!
# How a replacement is built

The entries of an inheritance clause are extended only where there is a clause, so there always are
entries to put the conformance behind, and no replacement is given up for the want of them.  What
becomes of the head of an enum can be told from its clause alone.
-/

namespace EnumForge

namespace EnumReplacement

/-- The head with the conformance in its inheritance clause.  A clause is made only on request. -/
def conforming (conformance : String) (insertMissing : Bool) (h : NominalHead) :
    Except ExpansionError NominalHead :=
  match h.inheritance with
  | some clause =>
    if clause.contains conformance then .ok h
    else do
      let token ← Token.identifier conformance
      return { h with inheritance := some (addConformance clause token) }
  | none =>
    if insertMissing then do
      let token ← Token.identifier conformance
      return { h.modifyNameEnd (·.withTrailing .empty) with
        inheritance := some (ConformanceExtension.soleConformance token) }
    else .ok h

/-- The enum that is proposed in the place of `d`. -/
def replacement (conformance : String) (insertMissing : Bool) (a : Attribute) (d : NominalDecl) :
    Except ExpansionError NominalDecl := do
  let disabled := disable a d
  let head ← conforming conformance insertMissing disabled.head
  let block ← rebuild d disabled.block
  return ⟨head, block⟩

variable (conformance : String) (insertMissing : Bool)

/-- There are entries wherever entries are asked for. -/
theorem conforming?_eq (h : NominalHead) : conforming? conformance insertMissing h =
    (conforming conformance insertMissing h).map some := by
  unfold conforming? conforming
  cases hclause : h.inheritance with
  | none =>
    cases insertMissing with
    | false => rfl
    | true => cases Token.identifier conformance <;> rfl
  | some clause =>
    cases hlisted : clause.contains conformance with
    | true => simp [hlisted, Except.map]
    | false =>
      simp only [Option.any_some, hlisted, updatedInheritances?]
      cases Token.identifier conformance <;> rfl

theorem replacement?_eq (a : Attribute) (d : NominalDecl) :
    replacement? conformance insertMissing a d =
      (replacement conformance insertMissing a d).map some := by
  unfold replacement? replacement
  dsimp only
  rw [conforming?_eq]
  cases conforming conformance insertMissing (disable a d).head with
  | error err => rfl
  | ok head => cases rebuild d (disable a d).block <;> rfl

/-- The generator fails or proposes: no enum is reported for the want of a clause. -/
theorem run_generator (a : Attribute) (d : Decl) (types : List TypeRef) :
    (generator conformance insertMissing).run a d types = onEnum a d fun e ↦
      match replacement conformance insertMissing a e with
      | .error err => ⟨.error err, []⟩
      | .ok new =>
        ⟨.ok [], [(Diagnostic.about a Catalog.replaceEnum).withFixIt
          (Catalog.fixIt d (.enum new))]⟩ := by
  refine congrArg (onEnum a d) (funext fun e ↦ ?_)
  rw [replacement?_eq]
  cases replacement conformance insertMissing a e <;> rfl

end EnumReplacement

end EnumForge
