import EnumForge.AppEnum.Extension

/-!
# Conformance by replacement

`@AppEnumGenFixIt` generates nothing by itself.  It proposes to replace the enum: the attribute
becomes a comment, the conformance is added to the inheritance clause, and all members but the
cases give way to the display members.
-/

namespace EnumForge.EnumReplacement

def name : String := "AppEnumGenFixIt"

/-! ### The attribute -/

/-- Where the triggering attribute stands: the first attribute equal to it, or else the first of
its name. -/
def position? (a : Attribute) (attributes : List Attribute) : Option Nat :=
  (attributes.findIdx? (· == a)).or (attributes.findIdx? (·.name == a.name))

/-- The attribute as a line comment. -/
def commentOut (a : Attribute) : Attribute :=
  Node.trimTrailing { a with atSign.text := "//@" }

/-- Makes the triggering attribute a comment; what follows it on its line moves to the next. -/
def disable (a : Attribute) (d : NominalDecl) : NominalDecl :=
  let attributes := d.head.preamble.attributes
  match position? a attributes with
  | none => d
  | some i =>
    let disabled := attributes.modify i commentOut
    let indent := ((attributes[i]?).map Node.indentation).getD ""
    Node.modifyToken (Node.tokens (disabled.take (i + 1))).length
      (fun t ↦ if t.startsLine then t else t.withLeading (Trivia.newlineIndent indent))
      { d with head.preamble.attributes := disabled }

/-! ### The inheritance clause -/

/-- An entry with a comma after it. -/
def withComma (i : InheritedType) : InheritedType :=
  if i.comma.isSome then i else ⟨Node.setTrailing .empty i.type, some Token.comma⟩

/-- The clause with one more entry. -/
def addConformance (c : InheritanceClause) (conformance : Token) : InheritanceClause :=
  let entry := (conformance.withLeading (Trivia.spaces 1)).spaced
  { c with types := c.types.map withComma ++ [⟨.identifier entry, none⟩] }

/-- The entries of a clause and the conformance behind them.  Without a clause there are none. -/
def updatedInheritances? (clause : Option InheritanceClause) (conformance : String) :
    Except ExpansionError (Option (List InheritedType)) :=
  match clause with
  | none => .ok none
  | some clause => do
    let token ← Token.identifier conformance
    return some (addConformance clause token).types

/-- The head with the conformance in its inheritance clause, or `none` if there are no entries to
put it behind.  A clause is made only on request. -/
def conforming? (conformance : String) (insertMissing : Bool) (h : NominalHead) :
    Except ExpansionError (Option NominalHead) :=
  if h.inheritance.any fun clause ↦ !clause.contains conformance then do
    let types? ← updatedInheritances? h.inheritance conformance
    return types?.map fun types ↦
      { h with inheritance := h.inheritance.map fun clause ↦ { clause with types } }
  else if h.inheritance.isNone && insertMissing then do
    let token ← Token.identifier conformance
    return some { h.modifyNameEnd (·.withTrailing .empty) with
      inheritance := some (ConformanceExtension.soleConformance token) }
  else .ok (some h)

/-! ### The members -/

/-- Changes the last element. -/
def modifyLast {α : Type} (f : α → α) (xs : List α) : List α := xs.modify (xs.length - 1) f

/-- The indentation of members: that of the first one, or one step more than the enum's. -/
def memberIndent (d : NominalDecl) : String :=
  let outer := Node.indentation d
  ((d.block.members.head?).bind fun m ↦ (Node.leading m).indentation).getD
    (outer ++ Display.indentStep outer)

/-- The block with its cases and the display members of `d`. -/
def rebuild (d : NominalDecl) (block : MemberBlock) : Except ExpansionError MemberBlock := do
  let indent := memberIndent d
  let display ← Display.membersOf d indent
  let cases := modifyLast Node.trimTrailing (block.members.filter (·.decl.isEnumCase))
  let added := [display.typeDisplay, display.caseDisplay].map
    (ConformanceExtension.bindingMember (Trivia.newlinesIndent 2 indent))
  let rightBrace :=
    if block.rightBrace.startsLine then block.rightBrace
    else block.rightBrace.withLeading (Trivia.newlineIndent (Node.indentation d))
  return { block with members := cases ++ added, rightBrace }

/-! ### The generator -/

/-- The enum that is proposed in the place of `d`, if there are entries to put the conformance
behind. -/
def replacement? (conformance : String) (insertMissing : Bool) (a : Attribute) (d : NominalDecl) :
    Except ExpansionError (Option NominalDecl) := do
  let disabled := disable a d
  match ← conforming? conformance insertMissing disabled.head with
  | none => return none
  | some head =>
    let block ← rebuild d disabled.block
    return some ⟨head, block⟩

def generator (conformance : String) (insertMissing : Bool) : Generator where
  name := name
  conformance := conformance
  run a d _ := onEnum a d fun e ↦
    match replacement? conformance insertMissing a e with
    | .error err => ⟨.error err, []⟩
    | .ok none => ⟨.ok [], [Diagnostic.about a Catalog.updatedInheritancesIsNil]⟩
    | .ok (some new) =>
      ⟨.ok [], [(Diagnostic.about a Catalog.replaceEnum).withFixIt
        (Catalog.fixIt d (.enum new))]⟩

end EnumForge.EnumReplacement
