import EnumForge.Proofs.AppEnum.Keeping
import EnumForge.Proofs.AppEnum.Proposal

/-!
# Refused names

Generated code takes over the name of the enum, the names of its cases and the conformance.  Each
of them is checked where it is built in, so the order of the checks decides which name a generator
fails with.  A construction *needs* a list of names if it fails with the first of them that is no
identifier, and comes to its end if all of them are.
-/

namespace EnumForge

open Text (isIdentifier)

/-- The first text that is no identifier. -/
def firstRefused? (texts : List String) : Option String := texts.find? fun t ↦ !isIdentifier t

theorem firstRefused?_append (ts us : List String) :
    firstRefused? (ts ++ us) = (firstRefused? ts).or (firstRefused? us) :=
  List.find?_append

/-- The construction fails with the first text that is no identifier, and only so. -/
inductive Needs {α : Type} (texts : List String) : Except ExpansionError α → Prop where
  | refused {t : String} (h : firstRefused? texts = some t) :
      Needs texts (.error (.invalidIdentifier t))
  | built {a : α} (h : firstRefused? texts = none) : Needs texts (.ok a)

namespace Needs

variable {α β : Type} {ts us : List String} {x : Except ExpansionError α}

theorem congr (h : Needs ts x) (hfirst : firstRefused? ts = firstRefused? us) : Needs us x := by
  cases h with
  | refused h => exact .refused (hfirst ▸ h)
  | built h => exact .built (hfirst ▸ h)

theorem identifier (text : String) : Needs [text] (Token.identifier text) := by
  unfold Token.identifier
  split
  next hid => exact .built (by simp [firstRefused?, hid])
  next hid => exact .refused (by simp [firstRefused?, hid])

/-- What is built first is checked first. -/
theorem bind (hx : Needs ts x) {f : α → Except ExpansionError β} (hf : ∀ a, Needs us (f a)) :
    Needs (ts ++ us) (x >>= f) := by
  cases hx with
  | refused h => exact .refused (by rw [firstRefused?_append, h, Option.some_or])
  | @built a h =>
    refine (hf a).congr ?_
    rw [firstRefused?_append, h, Option.none_or]

theorem map (hx : Needs ts x) (f : α → β) : Needs ts (x >>= fun a ↦ pure (f a)) := by
  cases hx with
  | refused h => exact .refused h
  | built h => exact .built h

theorem eq_error_iff (h : Needs ts x) (t : String) :
    x = .error (.invalidIdentifier t) ↔ firstRefused? ts = some t := by
  cases h with
  | refused h => simp [h]
  | built h => simp [h]

theorem exists_of_none (h : Needs ts x) (hnone : firstRefused? ts = none) : ∃ a, x = .ok a := by
  cases h with
  | refused h => simp [hnone] at h
  | built h => exact ⟨_, rfl⟩

end Needs

/-! ### The display members -/

/-- The name of the enum and those of its cases, as they are written. -/
def NominalDecl.writtenNames (d : NominalDecl) : List String :=
  d.head.name.text :: d.block.caseDecls.flatMap fun c ↦ c.elements.map fun e ↦ e.name.text

theorem MemberBlock.map_text_cases (b : MemberBlock) :
    b.cases.map (·.name.text) =
      b.caseDecls.flatMap fun c ↦ c.elements.map fun e ↦ e.name.text := by
  have hentries (p : CaseDecl × Nat) :
      (p.1.elements.map fun e ↦ (⟨e.name.bare, p.2⟩ : CaseEntry)).map (·.name.text) =
        p.1.elements.map fun e ↦ e.name.text := by
    rw [List.map_map]
    rfl
  rw [cases, List.map_flatMap]
  simp only [hentries]
  rw [← List.flatMap_map Prod.fst fun c : CaseDecl ↦ c.elements.map fun e ↦ e.name.text,
    List.zipIdx_map_fst]

namespace Display

theorem needs_element (indent : String) (startsLine : Bool) (e : CaseEntry)
    (next : Option CaseEntry) : Needs [e.name.text] (element indent startsLine e next) :=
  (Needs.identifier e.name.text).map _

theorem needs_elements (indent : String) (previous : Option CaseEntry) (es : List CaseEntry) :
    Needs (es.map (·.name.text)) (elements indent previous es) := by
  induction es generalizing previous with
  | nil => exact .built rfl
  | cons e es ih => exact (needs_element indent _ e es.head?).bind fun _ ↦ (ih (some e)).map _

theorem needs_mapping (cases : List CaseEntry) (indent : String) :
    Needs (cases.map (·.name.text)) (mapping cases indent) := by
  unfold mapping
  split
  next hempty =>
    rw [List.isEmpty_iff.1 hempty]
    exact .built rfl
  next => exact (needs_elements _ none cases).map _

/-- The name of the enum is checked before those of its cases. -/
theorem needs_membersOf (d : NominalDecl) (indent : String) :
    Needs d.writtenNames (membersOf d indent) := by
  have hcases := needs_mapping d.block.cases indent
  rw [d.block.map_text_cases] at hcases
  exact ((Needs.identifier d.head.name.text).bind fun _ ↦ hcases.map _).map _

end Display

/-! ### Both generators -/

theorem ConformanceExtension.needs_build (d : NominalDecl) (conformance : String) :
    Needs (d.writtenNames ++ [conformance]) (build d conformance) := by
  have hbuild : Needs (d.writtenNames ++ ([d.head.name.text] ++ [conformance]))
      (build d conformance) :=
    (Display.needs_membersOf d Display.indentUnit).bind fun _ ↦
      (Needs.identifier d.head.name.text).bind fun _ ↦ (Needs.identifier conformance).map _
  -- The name of the enum is checked twice, which changes nothing.
  refine Needs.congr hbuild ?_
  rw [firstRefused?_append, firstRefused?_append, firstRefused?_append]
  cases hid : isIdentifier d.head.name.text with
  | true => simp [firstRefused?, hid]
  | false => simp [firstRefused?, NominalDecl.writtenNames, hid]

namespace EnumReplacement

/-- Whether a conformance is to be added to a clause: it is not listed there, or there is no clause
and one is asked for. -/
def adds (conformance : String) (insertMissing : Bool) : Option InheritanceClause → Bool
  | some clause => !clause.contains conformance
  | none => insertMissing

theorem needs_conforming (conformance : String) (insertMissing : Bool) (h : NominalHead) :
    Needs (if adds conformance insertMissing h.inheritance then [conformance] else [])
      (conforming conformance insertMissing h) := by
  have hid := Needs.identifier conformance
  unfold conforming
  cases h.inheritance with
  | some clause =>
    dsimp only
    cases hlisted : clause.contains conformance with
    | true => simpa [adds, hlisted] using Needs.built rfl
    | false => simpa [adds, hlisted] using hid.map _
  | none =>
    cases insertMissing with
    | true => simpa [adds] using hid.map _
    | false => simpa [adds] using Needs.built rfl

theorem adds_disable (conformance : String) (insertMissing : Bool) (a : Attribute)
    (d : NominalDecl) : adds conformance insertMissing (disable a d).head.inheritance =
      adds conformance insertMissing d.head.inheritance := by
  have hadds (o : Option InheritanceClause) : adds conformance insertMissing o =
      ((o.map (·.contains conformance)).map (!·)).getD insertMissing := by
    cases o <;> rfl
  rw [hadds, hadds, map_contains_disable]

/-- The names that a replacement needs, in the order in which they are checked. -/
def neededNames (conformance : String) (insertMissing : Bool) (d : NominalDecl) :
    List String :=
  (if adds conformance insertMissing d.head.inheritance then [conformance] else []) ++
    d.writtenNames

theorem needs_replacement (conformance : String) (insertMissing : Bool) (a : Attribute)
    (d : NominalDecl) : Needs (neededNames conformance insertMissing d)
      (replacement conformance insertMissing a d) := by
  have hhead := needs_conforming conformance insertMissing (disable a d).head
  rw [adds_disable] at hhead
  refine hhead.bind fun head ↦ ?_
  exact ((Display.needs_membersOf d (memberIndent d)).map _).map _

end EnumReplacement

/-! ### What the generators answer -/

/-- What the extension generator answers about an enum: it reports nothing, fails with the first
refused name in the order of the enum, its cases and the conformance, and else brings one
extension. -/
structure ConformanceExtension.Answers (conformance : String) (d : NominalDecl) (o : Outcome) :
    Prop where
  diagnostics : o.diagnostics = []
  refused (t : String) : o.result = .error (.invalidIdentifier t) ↔
    firstRefused? (d.writtenNames ++ [conformance]) = some t
  extended : firstRefused? (d.writtenNames ++ [conformance]) = none → ∃ x, o.result = .ok [x]

theorem ConformanceExtension.answers_run (conformance : String) (a : Attribute) (d : NominalDecl)
    (types : List TypeRef) :
    Answers conformance d ((generator conformance).run a (.enum d) types) := by
  have hneeds := needs_build d conformance
  have hrun : (generator conformance).run a (.enum d) types =
      ⟨(build d conformance).map fun x ↦ [x], []⟩ := rfl
  rw [hrun]
  constructor
  · rfl
  · intro t
    rw [← hneeds.eq_error_iff]
    cases build d conformance with
    | error e => simp [Except.map]
    | ok x => simp [Except.map]
  · intro hnone
    obtain ⟨x, hx⟩ := hneeds.exists_of_none hnone
    exact ⟨x, by rw [hx]; rfl⟩

/-- What the replacement generator answers about an enum: it fails with the first refused name in
the order of the conformance, if it is to be added, the enum and its cases, and then reports
nothing; else it reports the one proposal to replace the enum. -/
structure EnumReplacement.Answers (conformance : String) (insertMissing : Bool) (a : Attribute)
    (d : NominalDecl) (o : Outcome) : Prop where
  refused (t : String) : o = ⟨.error (.invalidIdentifier t), []⟩ ↔
    firstRefused? (neededNames conformance insertMissing d) = some t
  proposed : firstRefused? (neededNames conformance insertMissing d) = none →
    ∃ new, o = ⟨.ok [], [⟨.warning, Catalog.replaceEnum.id, Catalog.replaceEnum.message,
      Node.span a, [⟨"Update AppEnum", Catalog.fixItId, [⟨.enum d, .enum new⟩]⟩]⟩]⟩

theorem EnumReplacement.answers_run (conformance : String) (insertMissing : Bool) (a : Attribute)
    (d : NominalDecl) (types : List TypeRef) : Answers conformance insertMissing a d
      ((generator conformance insertMissing).run a (.enum d) types) := by
  have hneeds := needs_replacement conformance insertMissing a d
  constructor
  · intro t
    rw [← hneeds.eq_error_iff]
    cases hnew : replacement conformance insertMissing a d with
    | error e => simp [run_generator, onEnum, Decl.enum?, hnew]
    | ok new => simp [run_generator, onEnum, Decl.enum?, hnew]
  · intro hnone
    obtain ⟨new, hnew⟩ := hneeds.exists_of_none hnone
    refine ⟨new, ?_⟩
    simp only [run_generator, onEnum, Decl.enum?, hnew]
    rfl

theorem onEnum_of_enum?_eq_none {d : Decl} (h : d.enum? = none) (a : Attribute)
    (step : NominalDecl → Outcome) :
    onEnum a d step = ⟨.ok [], [Diagnostic.about a Catalog.notAnEnum]⟩ := by
  rw [onEnum, h]

/-- What both generators answer about a declaration. -/
def outcomes (conformance : String) (insertMissing : Bool) (a : Attribute) (d : Decl)
    (types : List TypeRef) : List Outcome :=
  [(ConformanceExtension.generator conformance).run a d types,
    (EnumReplacement.generator conformance insertMissing).run a d types]

theorem eq_of_mem_outcomes {conformance : String} {insertMissing : Bool} {a : Attribute} {d : Decl}
    {types : List TypeRef} (hd : d.enum? = none) {o : Outcome}
    (ho : o ∈ outcomes conformance insertMissing a d types) :
    o = ⟨.ok [], [Diagnostic.about a Catalog.notAnEnum]⟩ := by
  rcases List.mem_pair.1 ho with rfl | rfl
  · exact onEnum_of_enum?_eq_none hd a _
  · exact onEnum_of_enum?_eq_none hd a _

/-- Both generators know two reports only. -/
theorem id_of_mem_outcomes {conformance : String} {insertMissing : Bool} {a : Attribute} {d : Decl}
    {types : List TypeRef} {o : Outcome} (ho : o ∈ outcomes conformance insertMissing a d types)
    {x : Diagnostic} (hx : x ∈ o.diagnostics) :
    x.id = Catalog.notAnEnum.id ∨ x.id = Catalog.replaceEnum.id := by
  cases hd : d.enum? with
  | none =>
    rw [eq_of_mem_outcomes hd ho, List.mem_singleton] at hx
    exact .inl (congrArg Diagnostic.id hx)
  | some e =>
    obtain rfl : d = .enum e := by
      cases d <;> simp_all [Decl.enum?]
    rcases List.mem_pair.1 ho with rfl | rfl
    · rw [(ConformanceExtension.answers_run conformance a e types).diagnostics] at hx
      cases hx
    · have hanswers := EnumReplacement.answers_run conformance insertMissing a e types
      cases hfirst : firstRefused? (EnumReplacement.neededNames conformance insertMissing e) with
      | some t =>
        rw [(hanswers.refused t).2 hfirst] at hx
        cases hx
      | none =>
        obtain ⟨new, hnew⟩ := hanswers.proposed hfirst
        rw [hnew, List.mem_singleton] at hx
        exact .inr (congrArg Diagnostic.id hx)

/-- Both generators answer about every declaration.  One that is no enum is reported, once, and
brings nothing.  About an enum they fail exactly with the first name they need that is refused.
An inheritance clause is never reported as missing. -/
theorem run_generators (conformance : String) (insertMissing : Bool) (a : Attribute) (d : Decl)
    (types : List TypeRef) :
    (d.enum? = none → ∀ o ∈ outcomes conformance insertMissing a d types,
      o = ⟨.ok [], [⟨.error, Catalog.notAnEnum.id, Catalog.notAnEnum.message, Node.span a, []⟩]⟩) ∧
      (∀ e, d = .enum e →
        ConformanceExtension.Answers conformance e
          ((ConformanceExtension.generator conformance).run a d types) ∧
        EnumReplacement.Answers conformance insertMissing a e
          ((EnumReplacement.generator conformance insertMissing).run a d types)) ∧
      ∀ o ∈ outcomes conformance insertMissing a d types, ∀ x ∈ o.diagnostics,
        x.id ≠ Catalog.updatedInheritancesIsNil.id := by
  refine ⟨fun hd o ho ↦ eq_of_mem_outcomes hd ho, ?_, ?_⟩
  · rintro e rfl
    exact ⟨ConformanceExtension.answers_run conformance a e types,
      EnumReplacement.answers_run conformance insertMissing a e types⟩
  · intro o ho x hx hid
    rcases id_of_mem_outcomes ho hx with hnot | hreplace
    · exact absurd (hnot.symm.trans hid) (by decide)
    · exact absurd (hreplace.symm.trans hid) (by decide)

/-- Two names that are refused, and a conformance that is too. -/
def refusedEnum : String := "@AppEnumGen enum A: Q \x7b case a, $b; case $c \x7d"

theorem run_generators_refusedEnum : ∃ d a,
    parseEnum? refusedEnum = some d ∧ d.head.preamble.attributes[0]? = some a ∧
      ((ConformanceExtension.generator "1").run a (.enum d) []).result =
        .error (.invalidIdentifier "$b") ∧
      (EnumReplacement.generator "1" false).run a (.enum d) [] =
        ⟨.error (.invalidIdentifier "1"), []⟩ := by
  have hnames : (parseEnum? refusedEnum).any (fun d ↦ d.head.preamble.attributes[0]?.isSome &&
      firstRefused? (d.writtenNames ++ ["1"]) == some "$b" &&
      firstRefused? (EnumReplacement.neededNames "1" false d) == some "1") = true := by
    decide +kernel
  obtain ⟨d, hparse, hd⟩ := (Option.any_eq_true _ _).1 hnames
  simp only [Bool.and_eq_true, beq_iff_eq] at hd
  obtain ⟨⟨ha, hextension⟩, hreplacement⟩ := hd
  obtain ⟨a, ha⟩ := Option.isSome_iff_exists.1 ha
  obtain ⟨-, henum, -⟩ := run_generators "1" false a (.enum d) []
  obtain ⟨hfirst, hsecond⟩ := henum d rfl
  exact ⟨d, a, hparse, ha, (hfirst.refused "$b").2 hextension, (hsecond.refused "1").2 hreplacement⟩

end EnumForge
