import EnumForge.Proofs.AppEnum.Outline
import EnumForge.Proofs.Expansion.Reports

/-!
# Plain enums with an extension

What becomes of a plain enum with the extension attribute, character by character: the line of the
attribute goes, the enum stays as it was written, and the extension follows after a blank line.
-/

namespace EnumForge

open Text (isIdentifier unticked)

/-! ### An item without its attributes, apart from places -/

theorem Token.detached_inheriting (l : Trivia) (t : Token) :
    (t.inheriting l).detached = t.detached.inheriting l := by
  have hline : t.detached.startsLine = t.startsLine := rfl
  unfold inheriting
  rw [hline]
  split <;> rfl

theorem Attribute.map_detached_strip (test : String → Bool) (as : List Attribute)
    (rest : List Token) : (strip test as rest).map Token.detached =
      strip test (as.map Node.detach) (rest.map Token.detached) := by
  induction as with
  | nil => rfl
  | cons a as ih =>
    have hname : (Node.detach a).name = a.name := rfl
    have hleading : Node.leading (Node.detach a) = Node.leading a := rfl
    rw [List.map_cons, strip, strip, hname, hleading, ← ih]
    by_cases htest : test a.name = true
    · rw [if_pos htest, if_pos htest]
      cases strip test as rest with
      | nil => rfl
      | cons t ts => exact congrArg (· :: _) (t.detached_inheriting _)
    · have htokens : Node.tokens (Node.detach a) = (Node.tokens a).map Token.detached :=
        a.hasShape.tokens_mapTokens Token.detached
      rw [if_neg htest, if_neg htest, htokens, List.map_append]

theorem Decl.map_detached_stripped (test : String → Bool) (d : Decl) :
    (d.stripped test).map Token.detached = (Node.detach d).stripped test := by
  have hafter : (Node.detach d).afterAttributes = d.afterAttributes.map Token.detached := by
    rw [afterAttributes, afterAttributes, ← (hasShape _).tokens_mapTokens,
      mapTokens_withAttributes]
    rfl
  rw [stripped, Attribute.map_detached_strip, stripped, hafter, Node.detach, attributes_mapTokens,
    Node.mapTokens_list]
  rfl

/-- An extension with nothing before it is put behind a blank line as it is. -/
theorem Expansion.extensionText_of_leading {x : ExtensionDecl}
    (hleading : (Node.leading x).text = "") :
    Expansion.extensionText x = "\n\n" ++ Node.source x := by
  rw [extensionText, Node.source_eq_trimmed, hleading, String.empty_append, String.append_assoc]

namespace EnumOutline

variable (o : EnumOutline)

section

variable {r : Registry} {attributeName : String}
  (hname : r.contains (unticked attributeName) = true) {d : NominalDecl}
  (hdetach : Node.detach d = o.declaration attributeName)
include hname hdetach

theorem exists_runAttributes : ∃ a, Expansion.runAttributes r ⟨.enum d, none⟩ = [a] ∧
    Node.detach a = marker attributeName := by
  obtain ⟨a, clause?, hhead, ha, -⟩ := o.head_of_detach hdetach
  have hcontains : r.contains a.name = true := by
    have heq : (Node.detach a).name = unticked attributeName := by rw [ha, name_marker]
    exact (congrArg r.contains heq).trans hname
  have hfilter : Expansion.runAttributes r ⟨.enum d, none⟩ =
      d.head.preamble.attributes.filter fun a ↦ r.contains a.name := if_pos rfl
  refine ⟨a, ?_, ha⟩
  rw [hfilter, hhead, List.filter_singleton, hcontains]
  rfl

/-- The enum is left as it was written, without the line of its attribute. -/
theorem source_ownTokens : Node.source (Expansion.ownTokens r ⟨.enum d, none⟩) = o.text := by
  have hown : Expansion.ownTokens r ⟨.enum d, none⟩ = (Decl.enum d).stripped r.contains ++ [] :=
    if_pos rfl
  have hdecl : Node.detach (Decl.enum d) = .enum (o.declaration attributeName) :=
    congrArg Decl.enum hdetach
  have htokens : (Decl.enum (o.declaration attributeName)).stripped r.contains =
      Node.tokens (o.enumWith [] (Token.ofKeyword "enum").spaced) := by
    have hafter : (Decl.enum (o.declaration attributeName)).afterAttributes =
        Node.tokens (o.enumWith [] keyword) := rfl
    have hattributes : (Decl.enum (o.declaration attributeName)).attributes =
        [marker attributeName] := rfl
    rw [← name_marker] at hname
    rw [Decl.stripped, hattributes, Attribute.strip_of_pos hname, hafter, tokens_enumWith,
      tokens_enumWith]
    -- The keyword starts a line, so it takes over what stood before the attribute: nothing.
    rfl
  have hkeyword : (Token.ofKeyword "enum").spaced.source = "" ++ "enum " := rfl
  have hsource := o.source_enumWith [] hkeyword
  have hnil : Node.source ([] : List Attribute) = "" := rfl
  rw [hnil, String.empty_append, String.empty_append] at hsource
  rw [hown, List.append_nil, ← Node.source_map_detached, Decl.map_detached_stripped, hdecl, htokens,
    Node.source, Node.tokens_tokenList]
  exact hsource

end

/-! ### The extension -/

/-- The extension of the enum. -/
def extensionText (conformance : String) : String :=
  "extension " ++ o.name ++ ": " ++ conformance ++ " \x7b\n    " ++
    Display.typeDisplayText o.name ++ "\n\n    " ++
      Display.caseDisplayText o.name "    " "        " o.cases ++ "\n\x7d"

theorem source_extension (name conformance : String) (ms : List Member) :
    Node.source (⟨⟨⟨[], []⟩, (Token.ofKeyword "extension").spaced,
        .identifier (.plain .identifier name),
        some (ConformanceExtension.soleConformance (.plain .identifier conformance)), none⟩,
      ⟨Token.leftBrace, ms, Token.rightBrace.withLeading (.newlines 1)⟩⟩ : ExtensionDecl) =
        "extension " ++ name ++ ": " ++ conformance ++ " " ++ "\x7b" ++ Node.source ms ++
          "\n\x7d" := by
  have htokens : Node.tokens (⟨⟨⟨[], []⟩, (Token.ofKeyword "extension").spaced,
        .identifier (.plain .identifier name),
        some (ConformanceExtension.soleConformance (.plain .identifier conformance)), none⟩,
      ⟨Token.leftBrace, ms, Token.rightBrace.withLeading (.newlines 1)⟩⟩ : ExtensionDecl) =
        (Token.ofKeyword "extension").spaced :: .plain .identifier name :: Token.colon.spaced ::
          (Token.plain .identifier conformance).spaced :: Token.leftBrace ::
            (Node.tokens ms ++ [Token.rightBrace.withLeading (.newlines 1)]) := by
    rw [Member.tokens_list]
    rfl
  have hsigns : (Token.ofKeyword "extension").spaced.source = "extension " ∧
      Token.colon.spaced.source = ": " ∧ Token.leftBrace.source = "\x7b" ∧
      (Token.rightBrace.withLeading (.newlines 1)).source = "\n\x7d" := ⟨rfl, rfl, rfl, rfl⟩
  rw [Node.source, htokens]
  simp only [Node.source, List.map_append, List.map_cons, List.map_nil, String.join_append,
    String.join_cons, String.join_nil, Token.source_plain, Token.source_spaced_plain, hsigns,
    String.append_assoc, String.append_empty, -String.reduceAppend]

theorem exists_build {conformance : String} (hconformance : isIdentifier conformance = true)
    {attributeName : String} {d : NominalDecl}
    (hdetach : Node.detach d = o.declaration attributeName) :
    ∃ x, ConformanceExtension.build d conformance = .ok x ∧
      Expansion.extensionText x = "\n\n" ++ o.extensionText conformance := by
  have hid := o.isIdentifier_of_detach hdetach
  obtain ⟨display, hdisplay, hprints⟩ :=
    o.exists_membersOf hdetach Display.isIndentChar_indentUnit
  have hlines : (Trivia.newlineIndent Display.indentUnit).text = "\n    " ∧
      (Trivia.newlinesIndent 2 Display.indentUnit).text = "\n\n    " := ⟨rfl, rfl⟩
  have hstep : Display.indentUnit ++ Display.indentStep Display.indentUnit = "        " := rfl
  have hopen : (" \x7b\n    " : String) = " " ++ "\x7b" ++ "\n    " := rfl
  have hnil : Node.source ([] : List Member) = "" := rfl
  refine ⟨_, ConformanceExtension.build_eq_ok.2 ⟨display, hdisplay, hid, hconformance, rfl⟩, ?_⟩
  refine (Expansion.extensionText_of_leading ?_).trans ?_
  · rfl
  · rw [source_extension, Node.source_cons, Node.source_cons, hprints.typeDisplay,
      hprints.caseDisplay, hlines.1, hlines.2,
      o.name_of_detach hdetach, hstep]
    -- Not `rw [extensionText]`: its equation is checked by comparing literals byte by byte.
    delta extensionText
    rw [hopen]
    simp only [hnil, String.append_assoc, String.append_empty, -String.reduceAppend]
    rfl

/-! ### The whole expansion -/

theorem nestedDiagnostics_eq_nil (r : Registry) {attributeName : String} {d : NominalDecl}
    (hdetach : Node.detach d = o.declaration attributeName) :
    Expansion.nestedDiagnostics r (.enum d) = [] := by
  have hnone : (Decl.enum d).nestedGroups = [] := by
    rw [Decl.nestedGroups_eq_flatMap]
    refine List.flatMap_eq_nil_iff.2 fun m hm ↦ ?_
    have hcase := o.isEnumCase_of_detach hdetach m hm
    obtain ⟨decl, semicolon⟩ := m
    cases decl with
    | enumCase => simp [Member.groups, Decl.isGroup, Decl.block?, Decl.nestedGroups]
    | enum | nominal | extension | binding | raw => simp [Decl.isEnumCase] at hcase
  rw [Expansion.nestedDiagnostics, hnone, List.flatMap_nil]

end EnumOutline

/-- A plain enum with the extension attribute is expanded without any report: the enum as it was
written but for the line of the attribute, a blank line, and the extension. -/
theorem expandSource_outline (o : EnumOutline) (s : Settings)
    (hconformance : isIdentifier s.conformance = true) :
    expandSource ("@AppEnumGen\n" ++ o.text) s.registry =
      .ok ⟨o.text ++ "\n\n" ++ o.extensionText s.conformance, []⟩ := by
  have hid : isIdentifier "AppEnumGen" = true := by decide +kernel
  obtain ⟨d, endOfFile, hparse, hdetach, hend⟩ := o.parseSource_text hid
  have hstart : ("@" ++ "AppEnumGen" ++ "\n" : String) = "@AppEnumGen\n" := by simp
  rw [hstart] at hparse
  have hcontains : s.registry.contains (unticked "AppEnumGen") = true := by
    rw [s.contains_registry]
    decide +kernel
  obtain ⟨a, hruns, ha⟩ := o.exists_runAttributes hcontains hdetach
  obtain ⟨x, hbuild, hx⟩ := o.exists_build hconformance hdetach
  have hrun : Expansion.runAttribute s.registry (.enum d) a = ([x], []) := by
    have hname : a.name = ConformanceExtension.name := congrArg Attribute.name ha
    rw [Expansion.runAttribute, hname, s.get?_extension]
    simp [ConformanceExtension.generator, onEnum, Decl.enum?, hbuild, Except.map]
  have hown := o.source_ownTokens hcontains hdetach
  have hnested := o.nestedDiagnostics_eq_nil s.registry hdetach
  have hempty : endOfFile.source = "" := congrArg Token.source hend
  have hcomposed := Expansion.composed_ofFile s.registry ⟨[⟨.enum d, none⟩], endOfFile⟩
  have hsource : (Expansion.ofFile s.registry ⟨[⟨.enum d, none⟩], endOfFile⟩).source =
      o.text ++ "\n\n" ++ o.extensionText s.conformance := by
    rw [hcomposed.source_eq]
    simp only [List.map_cons, List.map_nil, List.flatMap_cons, List.flatMap_nil, List.append_nil,
      String.join_cons, String.join_nil, hruns, hrun, hown, hx, hempty, String.append_empty,
      String.append_assoc]
  have hdiagnostics :
      (Expansion.ofFile s.registry ⟨[⟨.enum d, none⟩], endOfFile⟩).diagnostics = [] := by
    rw [hcomposed.diagnostics_eq]
    simp only [List.flatMap_cons, List.flatMap_nil, List.append_nil, hruns, hrun, hnested]
  refine expandSource_eq_ok.2 ⟨_, hparse, ?_⟩
  rw [← hsource, ← hdiagnostics]

/-- Names in back-ticks, and a tab before each line of cases. -/
def phaseOutline : EnumOutline where
  name := "`Phase`"
  inherited := ["Int", "`Sendable`"]
  cases := [["new", "`default`"], ["größte"]]
  indent := "\t"
  name_valid := by decide +kernel
  inherited_valid := by decide +kernel
  cases_valid := by decide +kernel
  indent_valid := by simp

def phaseExpanded : String :=
  "enum `Phase`: Int, `Sendable` \x7b\n\tcase new, `default`\n\tcase größte\n\x7d\n\n" ++
    "extension `Phase`: AppEnum \x7b\n" ++
    "    static var typeDisplayRepresentation: TypeDisplayRepresentation = \"Phase\"\n\n" ++
    "    static var caseDisplayRepresentations: [`Phase`: DisplayRepresentation] = [\n" ++
    "        .new: \"new\", .`default`: \"default\",\n        .größte: \"größte\"\n    ]\n\x7d"

theorem expandSource_phaseOutline : isIdentifier (Settings.conformance {}) = true ∧
    expandSource ("@AppEnumGen\n" ++ phaseOutline.text) (Settings.registry {}) =
      .ok ⟨phaseExpanded, []⟩ := by
  have hconformance : isIdentifier (Settings.conformance {}) = true := by decide +kernel
  have htext : phaseOutline.text ++ "\n\n" ++ phaseOutline.extensionText (Settings.conformance {}) =
      phaseExpanded := by decide +kernel
  have hexpand := expandSource_outline phaseOutline {} hconformance
  rw [htext] at hexpand
  exact ⟨hconformance, hexpand⟩

end EnumForge
