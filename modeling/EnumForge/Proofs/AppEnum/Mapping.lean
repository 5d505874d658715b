import EnumForge.Proofs.AppEnum.Layout
import EnumForge.Proofs.AppEnum.Refusal
import EnumForge.Proofs.AppEnum.Repeating
import EnumForge.Proofs.AppEnum.Reparsing

/-!
# The mapping in both generated forms

An extension and a replacement carry the same mapping from cases to labels, each at its own
indentation.  It has one entry for each name of the enum's own case declarations, in their order.
Entries are told apart by the declaration they come from, as far as the layout goes: a line starts
with the first name of a declaration, and within a line one space follows each comma.
-/

namespace EnumForge

/-! ### What a mapping shows -/

namespace NominalDecl

/-- Key and value for each name of the enum's own case declarations. -/
def shownCases (d : NominalDecl) : List (String × String) :=
  d.block.caseDecls.flatMap fun c ↦ c.elements.map fun e ↦
    ("." ++ e.name.text, (Token.stringLiteral (Text.unticked e.name.text)).text)

/-- For each of these names, whether it is the first of its declaration. -/
def firstNames (d : NominalDecl) : List Bool :=
  d.block.caseDecls.flatMap fun c ↦ c.elements.mapIdx fun i _ ↦ i == 0

end NominalDecl

/-- Key and value as they are printed. -/
def DictionaryElement.entry (e : DictionaryElement) : String × String :=
  (Node.trimmed e.key, Node.trimmed e.value)

/-- The elements of a dictionary. -/
def Expr.elements : Expr → List DictionaryElement
  | .dictionary _ es _ => es
  | _ => []

/-- The value shows the cases of the enum. -/
structure Display.ShowsCases (d : NominalDecl) (value : Expr) : Prop where
  entries : value.elements.map DictionaryElement.entry = d.shownCases
  /-- Every entry but the last has a comma. -/
  commas {i : Nat} {e : DictionaryElement} (h : value.elements[i]? = some e) :
    e.comma.map Token.text = if i + 1 < value.elements.length then some "," else none
  /-- A line starts at the first name of a declaration, and nowhere else. -/
  lines : ∃ indent, value.elements.map Node.leading =
    d.firstNames.map fun first ↦ if first then Trivia.newlineIndent indent else .empty
  /-- An entry on the same line follows after one space, and a line ends without a space. -/
  gaps {i : Nat} {e : DictionaryElement} (h : value.elements[i]? = some e) :
    (Node.trailing e).text = if d.firstNames[i + 1]? = some false then " " else ""
  empty : d.shownCases = [] → Node.source value = "[:]"

namespace Display

/-! ### Entries one by one -/

theorem eq_elementsOf {indent : String} {previous : Option CaseEntry} {es : List CaseEntry}
    {ds : List DictionaryElement} (h : elements indent previous es = .ok ds) :
    ds = elementsOf indent (previous.map CaseEntry.declaration) es := by
  induction es generalizing previous ds with
  | nil =>
    simp only [elements, pure, Except.pure, Except.ok.injEq] at h
    exact h.symm
  | cons e es ih =>
    obtain ⟨d, rest, hd, hrest, rfl⟩ := elements_cons_eq_ok.1 h
    obtain ⟨-, rfl⟩ := element_eq_ok.1 hd
    rw [ih hrest]
    cases previous <;> rfl

/-- For each entry, whether it comes from another declaration than the one before it. -/
def startsOf (previous : Option Nat) : List CaseEntry → List Bool
  | [] => []
  | e :: es => previous.all (· != e.declaration) :: startsOf (some e.declaration) es

variable {indent : String} {previous : Option Nat} {es : List CaseEntry}

theorem length_elementsOf : (elementsOf indent previous es).length = es.length := by
  induction es generalizing previous with
  | nil => rfl
  | cons e es ih => rw [elementsOf, List.length_cons, ih, List.length_cons]

theorem map_entry_elementsOf :
    (elementsOf indent previous es).map DictionaryElement.entry =
      es.map fun e ↦ ("." ++ e.name.text, (Token.stringLiteral e.label).text) := by
  have hkey (startsLine : Bool) (text : String) :
      Node.trimmed (Expr.implicitMember
        (if startsLine then Token.period.withLeading (Trivia.newlineIndent indent)
          else Token.period) (.plain .identifier text)) = "." ++ text := by
    cases startsLine <;> rfl
  induction es generalizing previous with
  | nil => rfl
  | cons e es ih =>
    rw [elementsOf, List.map_cons, ih, DictionaryElement.entry, hkey]
    rfl

theorem map_leading_elementsOf :
    (elementsOf indent previous es).map Node.leading = (startsOf previous es).map fun starts ↦
      if starts then Trivia.newlineIndent indent else .empty := by
  induction es generalizing previous with
  | nil => rfl
  | cons e es ih =>
    rw [elementsOf, startsOf, List.map_cons, List.map_cons, ih]
    cases previous.all (· != e.declaration) <;> rfl

theorem comma_elementsOf {i : Nat} {d : DictionaryElement}
    (h : (elementsOf indent previous es)[i]? = some d) :
    d.comma.map Token.text = if i + 1 < es.length then some "," else none := by
  induction es generalizing previous i with
  | nil => simp [elementsOf] at h
  | cons e es ih =>
    cases i with
    | zero =>
      obtain rfl := Option.some.inj h
      cases es with
      | nil => rfl
      | cons next es =>
        have htext : (separator e next).text = "," := by
          unfold separator
          split <;> rfl
        simp [htext]
    | succ i =>
      rw [ih h]
      simp

/-- The space after a comma goes with the declaration of the next entry. -/
theorem trailing_elementsOf {i : Nat} {d : DictionaryElement}
    (h : (elementsOf indent previous es)[i]? = some d) :
    (Node.trailing d).text = if (startsOf previous es)[i + 1]? = some false then " " else "" := by
  induction es generalizing previous i with
  | nil => simp [elementsOf] at h
  | cons e es ih =>
    cases i with
    | zero =>
      obtain rfl := Option.some.inj h
      cases es with
      | nil => rfl
      | cons next es =>
        have htrailing (key value : Expr) : Node.trailing
            (⟨key, Token.colon.spaced, value, some (separator e next)⟩ : DictionaryElement) =
              (separator e next).trailing := by
          have htokens : Node.tokens (⟨key, Token.colon.spaced, value,
              some (separator e next)⟩ : DictionaryElement) = (key.tokens ++ Token.colon.spaced ::
                value.tokens) ++ [separator e next] := by
            simp [Node.tokens, DictionaryElement.tokens]
          rw [Node.trailing, htokens, List.getLast?_concat]
          rfl
        rw [List.head?_cons, Option.map_some, htrailing, separator, startsOf, startsOf]
        by_cases hsame : next.declaration = e.declaration
        · rw [if_pos hsame, hsame, if_pos (by simp)]
          rfl
        · rw [if_neg hsame, if_neg (by simpa using Ne.symm hsame)]
          rfl
    | succ i => exact ih h

/-! ### Lines and declarations -/

/-- Further names of the same declaration stay on the line. -/
theorem startsOf_append_of_same (names : List Token) (i : Nat) (rest : List CaseEntry) :
    startsOf (some i) (names.map (⟨·, i⟩) ++ rest) =
      names.map (fun _ ↦ false) ++ startsOf (some i) rest := by
  induction names with
  | nil => rfl
  | cons name names ih =>
    rw [List.map_cons, List.cons_append, startsOf, ih, List.map_cons, List.cons_append]
    simp

/-- Declarations are numbered in their order, so a new number comes with each first name, even
after declarations without any. -/
theorem startsOf_cases (cs : List CaseDecl) {i : Nat} (hprevious : ∀ j ∈ previous, j < i) :
    startsOf previous ((cs.zipIdx i).flatMap fun (c, j) ↦ c.elements.map fun e ↦
        ⟨e.name.bare, j⟩) =
      cs.flatMap fun c ↦ c.elements.mapIdx fun j _ ↦ j == 0 := by
  induction cs generalizing i previous with
  | nil => rfl
  | cons c cs ih =>
    rw [List.zipIdx_cons, List.flatMap_cons, List.flatMap_cons]
    dsimp only
    cases c.elements with
    | nil =>
      rw [List.map_nil, List.nil_append, List.mapIdx_nil, List.nil_append]
      exact ih fun j hj ↦ Nat.lt_succ_of_lt (hprevious j hj)
    | cons e es =>
      have hstart : previous.all (· != i) = true := by
        cases previous with
        | none => rfl
        | some j => simpa using (hprevious j rfl).ne
      have hsame := startsOf_append_of_same (es.map fun e ↦ e.name.bare) i
        ((cs.zipIdx (i + 1)).flatMap fun (c, j) ↦ c.elements.map fun e ↦ ⟨e.name.bare, j⟩)
      rw [List.map_map] at hsame
      have hrest : es.mapIdx (fun j _ ↦ j + 1 == 0) = es.map fun _ ↦ false := by
        refine List.ext_getElem? fun j ↦ ?_
        rw [List.getElem?_mapIdx, List.getElem?_map]
        rfl
      rw [List.map_cons, List.cons_append, startsOf, hstart, List.mapIdx_cons, hrest,
        List.cons_append]
      refine congrArg (true :: ·) (hsame.trans ?_)
      rw [List.map_map, ih (by simp)]
      rfl

theorem startsOf_block (d : NominalDecl) : startsOf none d.block.cases = d.firstNames :=
  startsOf_cases d.block.caseDecls (i := 0) (by simp)

theorem map_shown_cases (d : NominalDecl) :
    d.block.cases.map (fun e ↦ ("." ++ e.name.text, (Token.stringLiteral e.label).text)) =
      d.shownCases := by
  have hnames := congrArg (List.map fun text ↦
    ("." ++ text, (Token.stringLiteral (Text.unticked text)).text)) d.block.map_text_cases
  rw [List.map_map, List.map_flatMap] at hnames
  simp only [List.map_map] at hnames
  exact hnames

theorem showsCases_of_mapping {d : NominalDecl} {value : Expr}
    (h : mapping d.block.cases indent = .ok value) : ShowsCases d value := by
  have hshown := map_shown_cases d
  cases hcases : d.block.cases with
  | nil =>
    rw [hcases] at h hshown
    obtain rfl : Expr.emptyDictionary Token.leftSquare Token.colon Token.rightSquare = value := by
      simpa [mapping] using h
    have hfirst : d.firstNames = [] := by
      rw [← startsOf_block, hcases]
      rfl
    exact ⟨hshown, by simp [Expr.elements], ⟨"", by simp [hfirst, Expr.elements]⟩,
      by simp [Expr.elements], fun _ ↦ rfl⟩
  | cons e es =>
    have hfirst := startsOf_block d
    rw [hcases] at h hshown hfirst
    obtain ⟨ds, hds, h⟩ := bind_eq_ok.1 h
    obtain rfl := eq_elementsOf hds
    simp only [pure, Except.pure, Except.ok.injEq] at h
    subst h
    constructor
    · exact map_entry_elementsOf.trans hshown
    · intro i e hi
      rw [comma_elementsOf hi, Expr.elements, length_elementsOf]
    · exact ⟨_, hfirst ▸ map_leading_elementsOf⟩
    · intro i e hi
      rw [trailing_elementsOf hi, ← hfirst]
      rfl
    · intro hempty
      simp [hempty] at hshown

end Display

/-! ### Where the mapping stands -/

/-- The value of the member, if it is a binding of that name. -/
def Member.valueOf? (name : String) (m : Member) : Option Expr :=
  match m.decl with
  | .binding b => if b.name = name then b.initializer.map Initializer.value else none
  | _ => none

/-- The values of the bindings of that name in a block. -/
def MemberBlock.valuesOf (name : String) (b : MemberBlock) : List Expr :=
  b.members.filterMap (Member.valueOf? name)

namespace Display

theorem valueOf?_bindingMember (key : String) (l : Trivia) (name : Token) (type : TypeRef)
    (value : Expr) :
    (ConformanceExtension.bindingMember l (staticVar name type value)).valueOf? key =
      if name.name = key then some value else none := by
  rw [ConformanceExtension.bindingMember, setLeading_staticVar]
  rfl

/-- Of the two members, the second is the mapping. -/
theorem exists_valueOf?_members {d : NominalDecl} {indent : String} {ms : Members}
    (h : membersOf d indent = .ok ms) : ∃ value, ShowsCases d value ∧
      ∀ l l', [ConformanceExtension.bindingMember l ms.typeDisplay,
        ConformanceExtension.bindingMember l' ms.caseDisplay].filterMap
          (Member.valueOf? "caseDisplayRepresentations") = [value] := by
  obtain ⟨b, hb, rfl⟩ := membersOf_eq_ok.1 h
  obtain ⟨value, -, hvalue, rfl⟩ := caseDisplay_eq_ok.1 hb
  refine ⟨value, showsCases_of_mapping hvalue, fun l l' ↦ ?_⟩
  have hother : (Token.plain .identifier "typeDisplayRepresentation").name ≠
      "caseDisplayRepresentations" := by decide
  have hown : (Token.plain .identifier "caseDisplayRepresentations").name =
      "caseDisplayRepresentations" := by decide
  rw [List.filterMap_cons_none, List.filterMap_cons_some, List.filterMap_nil]
  · rw [valueOf?_bindingMember, if_pos hown]
  · rw [typeDisplay, valueOf?_bindingMember, if_neg hother]

end Display

theorem ConformanceExtension.exists_mapping {conformance : String} {d : NominalDecl}
    {x : ExtensionDecl} (h : build d conformance = .ok x) :
    ∃ value, x.block.valuesOf "caseDisplayRepresentations" = [value] ∧
      Display.ShowsCases d value := by
  obtain ⟨ms, hms, -, -, rfl⟩ := build_eq_ok.1 h
  obtain ⟨value, hshows, hvalue⟩ := Display.exists_valueOf?_members hms
  exact ⟨value, hvalue _ _, hshows⟩

/-- The cases that stay are no bindings, and other members go. -/
theorem EnumReplacement.exists_mapping {conformance : String} {insertMissing : Bool}
    {a : Attribute} {old new : NominalDecl}
    (h : replacement conformance insertMissing a old = .ok new) :
    ∃ value, new.block.valuesOf "caseDisplayRepresentations" = [value] ∧
      Display.ShowsCases old value := by
  obtain ⟨-, hblock⟩ := replacement_eq_ok.1 h
  obtain ⟨display, hdisplay, hblock⟩ := rebuild_eq_ok.1 hblock
  obtain ⟨value, hshows, hvalue⟩ := Display.exists_valueOf?_members hdisplay
  refine ⟨value, ?_, hshows⟩
  have hcases : (modifyLast Node.trimTrailing ((disable a old).block.members.filter
      (·.decl.isEnumCase))).filterMap (Member.valueOf? "caseDisplayRepresentations") = [] := by
    refine List.filterMap_eq_nil_iff.2 fun m hm ↦ ?_
    have hcase := isEnumCase_of_mem_modifyLast hm
    unfold Member.valueOf?
    split
    next b hb => simp [hb, Decl.isEnumCase] at hcase
    next => rfl
  rw [hblock, MemberBlock.valuesOf, rebuiltMembers, List.filterMap_append, hcases, List.nil_append]
  exact hvalue _ _

/-- Where both generators succeed on an enum, the extension and the replacement have one mapping
each.  Both have the same entries and show the cases of the enum. -/
theorem showsCases_of_both {conformance conformance' : String} {insertMissing : Bool}
    {a a' : Attribute} {types : List TypeRef} {d new : NominalDecl} {x : ExtensionDecl}
    (hextension : ((ConformanceExtension.generator conformance).run a (.enum d) types).result =
      .ok [x])
    (hreplacement : EnumReplacement.Proposes conformance' insertMissing a' d new) :
    ∃ value value', x.block.valuesOf "caseDisplayRepresentations" = [value] ∧
      new.block.valuesOf "caseDisplayRepresentations" = [value'] ∧
      value.elements.map DictionaryElement.entry = value'.elements.map DictionaryElement.entry ∧
      Display.ShowsCases d value ∧ Display.ShowsCases d value' := by
  have hbuild : ConformanceExtension.build d conformance = .ok x := by
    have hrun : (ConformanceExtension.build d conformance).map (fun x ↦ [x]) = .ok [x] :=
      hextension
    cases hb : ConformanceExtension.build d conformance with
    | error e => simp [hb, Except.map] at hrun
    | ok y => simpa [hb, Except.map] using hrun
  obtain ⟨value, hvalue, hshows⟩ := ConformanceExtension.exists_mapping hbuild
  obtain ⟨value', hvalue', hshows'⟩ :=
    EnumReplacement.exists_mapping (EnumReplacement.proposes_iff.1 hreplacement)
  exact ⟨value, value', hvalue, hvalue', hshows.entries.trans hshows'.entries.symm, hshows, hshows'⟩

/-- Two lists of cases, with a binding and another enum between them. -/
def interruptedEnum : String :=
  "@AppEnumGen @AppEnumGenFixIt enum A \x7b\n  case a, \x60in\x60\n  var x = 1\n" ++
    "  enum B \x7b case b \x7d\n  case c\n\x7d"

theorem showsCases_interruptedEnum : ∃ a d x new value value',
    parseEnum? interruptedEnum = some d ∧
      d.shownCases = [(".a", "\"a\""), (".\x60in\x60", "\"in\""), (".c", "\"c\"")] ∧
      d.firstNames = [true, false, true] ∧
      ((ConformanceExtension.generator "P").run a (.enum d) []).result = .ok [x] ∧
      EnumReplacement.Proposes "P" true a d new ∧
      x.block.valuesOf "caseDisplayRepresentations" = [value] ∧
      new.block.valuesOf "caseDisplayRepresentations" = [value'] ∧
      Display.ShowsCases d value ∧ Display.ShowsCases d value' := by
  have hsome : ((EnumReplacement.proposal? "P" true 1 interruptedEnum).any fun (d, _, _) ↦
      (ConformanceExtension.build d "P").isOk && d.firstNames == [true, false, true] &&
        d.shownCases == [(".a", "\"a\""), (".\x60in\x60", "\"in\""), (".c", "\"c\"")]) = true := by
    decide +kernel
  obtain ⟨⟨d, a, new⟩, hproposal, hd⟩ := (Option.any_eq_true _ _).1 hsome
  simp only [Bool.and_eq_true, beq_iff_eq] at hd
  obtain ⟨⟨hbuild, hfirst⟩, hshown⟩ := hd
  obtain ⟨hparse, -, hreplacement⟩ := EnumReplacement.of_proposal? hproposal
  cases hx : ConformanceExtension.build d "P" with
  | error e => simp [hx, Except.isOk, Except.toBool] at hbuild
  | ok x =>
    have hextension : ((ConformanceExtension.generator "P").run a (.enum d) []).result =
        .ok [x] := congrArg (Except.map fun x ↦ [x]) hx
    obtain ⟨value, value', hvalue, hvalue', -, hshows, hshows'⟩ :=
      showsCases_of_both hextension hreplacement
    exact ⟨a, d, x, new, value, value', parseEnum?_eq_some.2 hparse, hshown, hfirst, hextension,
      hreplacement, hvalue, hvalue', hshows, hshows'⟩

end EnumForge
