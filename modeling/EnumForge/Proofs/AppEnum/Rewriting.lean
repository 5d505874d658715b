import EnumForge.Proofs.AppEnum.Outline
import EnumForge.Proofs.AppEnum.Refixing

/-!
# Plain enums that are rewritten

What becomes of a plain enum that asks for a replacement, character by character: the line of the
attribute becomes a comment, the conformance is the last entry of the inheritance clause, and the
display members follow the cases.
-/

namespace EnumForge

open Text (isIdentifier unticked)

/-! ### The steps of a replacement, apart from places -/

namespace EnumReplacement

theorem detach_withComma (i : InheritedType) :
    Node.detach (withComma i) = withComma (Node.detach i) := by
  obtain ⟨type, comma⟩ := i
  cases comma with
  | some t => rfl
  | none =>
    have htype := type.hasShape.detach_setTrailing .empty
    exact congrArg (InheritedType.mk · (some Token.comma)) htype

theorem detach_addConformance (c : InheritanceClause) (conformance : String) :
    Node.detach (addConformance c (.plain .identifier conformance)) =
      addConformance (Node.detach c) (.plain .identifier conformance) := by
  obtain ⟨colon, types⟩ := c
  have htypes : Node.detach (types.map withComma) = (Node.detach types).map withComma := by
    rw [Node.detach, Node.mapTokens_list, Node.detach, Node.mapTokens_list, List.map_map,
      List.map_map]
    exact List.map_congr_left fun i _ ↦ detach_withComma i
  have hentries (i : InheritedType) : Node.detach (types.map withComma ++ [i]) =
      (Node.detach types).map withComma ++ [Node.detach i] := by
    rw [← htypes, Node.detach, Node.mapTokens_list, List.map_append, ← Node.mapTokens_list]
    rfl
  exact congrArg (InheritanceClause.mk colon.detached) (hentries _)

/-- The only attribute becomes a comment; the keyword on the next line stays where it is. -/
theorem disable_of_sole {a : Attribute} {d : NominalDecl}
    (hpreamble : d.head.preamble = ⟨[a], []⟩) (hline : d.head.keyword.startsLine = true) :
    disable a d = d.withFront (⟨[commentOut a], []⟩, d.head.keyword) := by
  have hattributes : d.head.preamble.attributes = [] ++ a :: [] := by rw [hpreamble]; rfl
  have hmoved : moved a [] d = ([], [], d.head.keyword) := by
    rw [moved, hpreamble]
    refine (hasShape_rest _).modifyToken_of_eq ?_
    rintro t ⟨⟩
    exact Token.onOwnLine_of_startsLine _ hline
  rw [disable_eq hattributes (by simp), disabledFront, hmoved]
  rfl

/-- An enum with its only attribute commented out, the conformance in its inheritance clause `c`,
and the display members among its members. -/
def rewritten (conformance : String) (a : Attribute) (c : InheritanceClause) (indent : String)
    (display : Display.Members) (d : NominalDecl) : NominalDecl where
  head := ⟨⟨[commentOut a], []⟩, d.head.keyword, d.head.name, none,
    some (addConformance c (.plain .identifier conformance)), none⟩
  block := ⟨d.block.leftBrace, rebuiltMembers d.block.members indent display, d.block.rightBrace⟩

theorem replacement_of_sole {conformance : String} {a : Attribute} {d : NominalDecl}
    {c : InheritanceClause} {display : Display.Members}
    (hhead : d.head = ⟨⟨[a], []⟩, d.head.keyword, d.head.name, none, some c, none⟩)
    (hline : d.head.keyword.startsLine = true) (hlisted : c.contains conformance = false)
    (hid : isIdentifier conformance = true)
    (hdisplay : Display.membersOf d (memberIndent d) = .ok display)
    (hright : d.block.rightBrace.startsLine = true) (insertMissing : Bool) :
    replacement conformance insertMissing a d =
      .ok (rewritten conformance a c (memberIndent d) display d) := by
  apply replacement_eq_ok.2
  rw [disable_of_sole (by rw [hhead]) hline]
  constructor
  · apply conforming_eq_ok.2
    obtain ⟨⟨preamble, keyword, name, generics, clause?, requirements⟩, block⟩ := d
    obtain ⟨-, rfl, rfl, rfl⟩ : preamble = ⟨[a], []⟩ ∧ generics = none ∧ clause? = some c ∧
        requirements = none := by
      simpa using hhead
    exact .added rfl hlisted hid
  · apply rebuild_eq_ok.2
    refine ⟨display, hdisplay, ?_⟩
    have hbrace := Token.onOwnLine_of_startsLine (Node.indentation d) hright
    exact congrArg (MemberBlock.mk _ _) hbrace.symm

theorem modifyLast_of_forall {α : Type} {f : α → α} {xs : List α} (h : ∀ x ∈ xs, f x = x) :
    modifyLast f xs = xs := by
  refine List.ext_getElem? fun i ↦ ?_
  rw [modifyLast, List.getElem?_modify]
  cases hi : xs[i]? with
  | none => rfl
  | some x =>
    have hx := h x (List.mem_of_getElem? hi)
    simp [hx]

end EnumReplacement

namespace EnumOutline

open EnumReplacement

variable (o : EnumOutline)

/-- One level more than the cases: by a tab where tabs are used, or else by four spaces. -/
def innerIndent : String := o.indent ++ if o.indent.toList.contains '\t' then "\t" else "    "

/-- The enum with the conformance, and with the display members behind its cases. -/
def conformingText (conformance : String) : String :=
  o.headText (o.inherited ++ [conformance]) ++ o.casesText ++
    "\n\n" ++ o.indent ++ Display.typeDisplayText o.name ++
    "\n\n" ++ o.indent ++ Display.caseDisplayText o.name o.indent o.innerIndent o.cases ++ "\n\x7d"

/-! ### The attribute and the inheritance clause -/

theorem commentOut_of_detach {a : Attribute} {attributeName : String}
    (ha : Node.detach a = marker attributeName) :
    commentOut a = { a with atSign.text := "//@" } ∧
      Node.source [commentOut a] = "//@" ++ attributeName := by
  have hdetach : Node.detach { a with atSign.text := "//@" } =
      { marker attributeName with atSign.text := "//@" } :=
    congrArg (fun a : Attribute ↦ { a with atSign.text := "//@" }) ha
  have hcomment : commentOut a = { a with atSign.text := "//@" } := by
    refine (Attribute.hasShape _).trimTrailing_of_trailing ?_
    rw [← (Attribute.hasShape _).trailing_detach, hdetach]
    rfl
  have hsource : Node.source [commentOut a] =
      Node.source ({ a with atSign.text := "//@" } : Attribute) := by
    rw [hcomment, Node.source_cons]
    exact String.append_empty
  refine ⟨hcomment, ?_⟩
  rw [hsource, ← (Attribute.hasShape _).source_detach, hdetach]
  have htokens : Node.tokens { marker attributeName with atSign.text := "//@" } =
      [.plain .atSign "//@", .plain .identifier attributeName] := rfl
  rw [Node.source, htokens, List.map_cons, List.map_singleton, String.join_cons, String.join_cons,
    String.join_nil, Token.source_plain, Token.source_plain, String.append_empty]

theorem source_withComma {names : List String} (hne : names ≠ []) (conformance : String) :
    Node.source ((inheritedTypesOf names).map withComma) ++ " " ++ conformance =
      ", ".intercalate (names ++ [conformance]) := by
  induction names with
  | nil => exact absurd rfl hne
  | cons name names ih =>
    cases names with
    | nil =>
      have htokens : Node.tokens ((inheritedTypesOf [name]).map withComma) =
          [.plain .identifier name, Token.comma] := rfl
      have hcomma : Token.comma.source ++ " " = ", " := rfl
      -- The last type loses the space before the brace; it comes back before the conformance.
      rw [Node.source, htokens, List.singleton_append, String.intercalate_cons_cons,
        String.intercalate_singleton, ← hcomma]
      simp only [List.map_cons, List.map_nil, String.join_cons, String.join_nil,
        Token.source_plain, String.append_assoc, String.append_empty]
    | cons next names =>
      have hfirst : Node.source (⟨.identifier (.plain .identifier name),
          some Token.comma.spaced⟩ : InheritedType) = name ++ ", " := source_of_beforeComma rfl
      have hcons : (inheritedTypesOf (name :: next :: names)).map withComma =
          ⟨.identifier (.plain .identifier name), some Token.comma.spaced⟩ ::
            (inheritedTypesOf (next :: names)).map withComma := rfl
      have hrest := ih (by simp)
      rw [List.cons_append] at hrest
      rw [hcons, Node.source_cons, hfirst, List.cons_append, List.cons_append,
        String.intercalate_cons_cons, ← hrest]
      simp only [String.append_assoc]

theorem source_addConformance {c : InheritanceClause} (hne : o.inherited ≠ [])
    (hc : Node.detach c = ⟨Token.colon.spaced, inheritedTypesOf o.inherited⟩)
    (conformance : String) :
    Node.source (addConformance c (.plain .identifier conformance)) =
      ": " ++ ", ".intercalate (o.inherited ++ [conformance]) ++ " " := by
  have htokens : Node.tokens (addConformance ⟨Token.colon.spaced, inheritedTypesOf o.inherited⟩
      (.plain .identifier conformance)) = Token.colon.spaced ::
        (Node.tokens ((inheritedTypesOf o.inherited).map withComma) ++
          [((Token.plain .identifier conformance).withLeading (.spaces 1)).spaced]) :=
    congrArg (Token.colon.spaced :: ·) List.flatMap_append
  have hcolon : Token.colon.spaced.source = ": " := rfl
  have hentry : ((Token.plain .identifier conformance).withLeading (.spaces 1)).spaced.source =
      " " ++ conformance ++ " " := rfl
  have hnames := source_withComma hne conformance
  rw [Node.source] at hnames
  rw [← (InheritanceClause.hasShape _).source_detach, detach_addConformance, hc, ← hnames,
    Node.source, htokens]
  simp only [List.map_cons, List.map_append, List.map_nil, String.join_cons, String.join_append,
    String.join_nil, hcolon, hentry, String.append_assoc, String.append_empty]

theorem contains_of_detach {c : InheritanceClause}
    (hc : Node.detach c = ⟨Token.colon.spaced, inheritedTypesOf o.inherited⟩)
    {conformance : String} (hnew : ∀ type ∈ o.inherited, unticked type ≠ conformance) :
    c.contains conformance = false := by
  have hlike : Node.Like ⟨Token.colon.spaced, inheritedTypesOf o.inherited⟩ c :=
    hc ▸ c.hasShape.like_detach
  have hnames : (inheritedTypesOf o.inherited).map (fun i ↦ i.type.nominalName?) =
      o.inherited.map fun name ↦ some (unticked name) := by
    have hbare := congrArg (List.map fun t : Token ↦ some t.name)
      (map_bare_nameList (.spaces 1) o.inherited)
    rw [List.map_map, List.map_map] at hbare
    rw [inheritedTypesOf, List.map_map]
    exact hbare
  have hany : (⟨Token.colon.spaced, inheritedTypesOf o.inherited⟩ :
      InheritanceClause).contains conformance =
        ((inheritedTypesOf o.inherited).map (fun i ↦ i.type.nominalName?)).any
          (· == some conformance) := by
    rw [List.any_map]
    rfl
  rw [← c.contains_mapTokens_bare, ← hlike, InheritanceClause.contains_mapTokens_bare, hany, hnames,
    List.any_eq_false]
  intro name hmem
  obtain ⟨type, htype, rfl⟩ := List.mem_map.1 hmem
  simpa using hnew type htype

/-! ### The members -/

theorem trailing_caseMember {names : List String} (hne : names ≠ []) :
    Node.trailing (o.caseMember names) = .empty := by
  obtain ⟨ts, last, hts, hlast⟩ := exists_last_nameList .empty hne
  rw [Node.trailing, tokens_caseMember, hts, ← List.cons_append, List.getLast?_concat]
  exact hlast

section

variable {attributeName : String} {d : NominalDecl}
  (hdetach : Node.detach d = o.declaration attributeName)
include hdetach

theorem memberIndent_of_detach (hcases : o.cases ≠ []) : memberIndent d = o.indent := by
  obtain ⟨names, cases, hcons⟩ := List.exists_cons_of_ne_nil hcases
  have hmembers := o.members_of_detach hdetach
  rw [hcons, List.map_cons] at hmembers
  obtain ⟨m, ms, hms, hm, -⟩ := List.map_eq_cons_iff.1 hmembers
  have hleading : Node.leading m = Trivia.newlineIndent o.indent := by
    rw [← m.hasShape.leading_detach, hm]
    rfl
  have hindent : (Trivia.newlineIndent o.indent).indentation = some o.indent := by
    have hfilter := List.filter_eq_self.2 o.isIndentChar_indent
    rw [Trivia.newlineIndent, Trivia.indentation_newlinesIndent, hfilter, String.ofList_toList]
  rw [memberIndent, hms, List.head?_cons, Option.bind_some, hleading, hindent]
  rfl

theorem rebuiltMembers_of_detach (indent : String) (display : Display.Members) :
    rebuiltMembers d.block.members indent display = d.block.members ++
      [display.typeDisplay, display.caseDisplay].map
        (ConformanceExtension.bindingMember (Trivia.newlinesIndent 2 indent)) := by
  -- All members are cases, and no blank follows any of them.
  have htrim : ∀ m ∈ d.block.members, Node.trimTrailing m = m := by
    intro m hm
    obtain ⟨names, hnames, heq⟩ := o.detach_of_mem_members hdetach hm
    apply m.hasShape.trimTrailing_of_trailing
    rw [← m.hasShape.trailing_detach, heq]
    exact o.trailing_caseMember (o.cases_valid names hnames).1
  rw [rebuiltMembers, List.filter_eq_self.2 (o.isEnumCase_of_detach hdetach),
    modifyLast_of_forall htrim]

theorem source_rebuilt {display : Display.Members}
    (hprints : display.Prints o.name o.indent o.innerIndent o.cases) :
    Node.source (rebuiltMembers d.block.members o.indent display) = o.casesText ++
      "\n\n" ++ o.indent ++ Display.typeDisplayText o.name ++
      "\n\n" ++ o.indent ++ Display.caseDisplayText o.name o.indent o.innerIndent o.cases := by
  have hmembers : Node.source d.block.members = o.casesText := by
    have hsource := (Node.HasShape.list (Member.hasShape_of_mem d.block.members)).source_detach
    rw [← hsource, Node.detach, Node.mapTokens_list]
    exact (congrArg Node.source (o.members_of_detach hdetach)).trans o.source_members
  have hline : (Trivia.newlinesIndent 2 o.indent).text = "\n\n" ++ o.indent :=
    Trivia.text_newlinesIndent 2 o.isIndentChar_indent
  rw [Member.source_list] at hmembers
  rw [o.rebuiltMembers_of_detach hdetach, Member.source_list, List.map_append, String.join_append,
    hmembers]
  simp only [List.map_cons, List.map_nil, String.join_cons, String.join_nil, hprints.typeDisplay,
    hprints.caseDisplay, hline, String.append_assoc, String.append_empty]

theorem source_rewritten (hinherited : o.inherited ≠ []) {a : Attribute}
    (ha : Node.detach a = marker attributeName) {c : InheritanceClause}
    (hc : Node.detach c = ⟨Token.colon.spaced, inheritedTypesOf o.inherited⟩)
    (conformance : String) {display : Display.Members}
    (hprints : display.Prints o.name o.indent o.innerIndent o.cases) :
    Node.source (rewritten conformance a c o.indent display d) =
      "//@" ++ attributeName ++ "\n" ++ o.conformingText conformance := by
  obtain ⟨-, -, -, -, hkeyword, hname, -⟩ := o.head_of_detach hdetach
  obtain ⟨hleft, hright⟩ := o.braces_of_detach hdetach
  have hsigns : d.head.keyword.source = "\n" ++ "enum " ∧ d.block.leftBrace.source = "\x7b" ∧
      d.block.rightBrace.source = "\n\x7d" :=
    ⟨congrArg Token.source hkeyword, congrArg Token.source hleft, congrArg Token.source hright⟩
  have hnameText : d.head.name.source = o.name := by
    have htoken : o.nameToken = .plain .identifier o.name := if_neg (by simpa using hinherited)
    rw [htoken] at hname
    exact (congrArg Token.source hname).trans (Token.source_plain _ _)
  have hclause : Node.source (some (addConformance c (.plain .identifier conformance))) = _ :=
    o.source_addConformance hinherited hc conformance
  have hbrace : (" \x7b" : String) = " " ++ "\x7b" := rfl
  rw [rewritten, NominalDecl.source_plain, (commentOut_of_detach ha).2,
    o.source_rebuilt hdetach hprints, hnameText, hclause, hsigns.1, hsigns.2.1, hsigns.2.2]
  delta conformingText headText
  rw [clauseText, if_neg (by simp), hbrace]
  simp only [String.append_assoc, -String.reduceAppend]

/-- Nothing stands around the new enum. -/
theorem trimmed_rewritten {a : Attribute} (ha : Node.detach a = marker attributeName)
    (c : InheritanceClause) (conformance indent : String) (display : Display.Members) :
    Node.trimmed (rewritten conformance a c indent display d) =
      Node.source (rewritten conformance a c indent display d) := by
  have hleading : Node.leading (rewritten conformance a c indent display d) = .empty := by
    have hsign : (commentOut a).atSign.leading = .empty := by
      rw [(commentOut_of_detach ha).1]
      exact congrArg (·.atSign.leading) ha
    exact hsign
  have htrailing : d.block.rightBrace.trailing = .empty :=
    congrArg Token.trailing (o.braces_of_detach hdetach).2
  rw [Node.source_eq_trimmed, NominalDecl.trailing_eq, hleading, rewritten, htrailing,
    Trivia.text_empty, String.empty_append, String.append_empty]

theorem exists_replacement (hinherited : o.inherited ≠ []) (hcases : o.cases ≠ [])
    {conformance : String} (hconformance : isIdentifier conformance = true)
    (hnew : ∀ type ∈ o.inherited, unticked type ≠ conformance) (insertMissing : Bool) :
    ∃ a new, d.head.preamble.attributes = [a] ∧ Node.detach a = marker attributeName ∧
      replacement conformance insertMissing a d = .ok new ∧
      Node.trimmed new = "//@" ++ attributeName ++ "\n" ++ o.conformingText conformance := by
  obtain ⟨a, clause?, hhead, ha, hkeyword, -, hclause⟩ := o.head_of_detach hdetach
  have hsome : o.clause? = some ⟨Token.colon.spaced, inheritedTypesOf o.inherited⟩ :=
    if_neg (by simpa using hinherited)
  obtain ⟨c, rfl, hc⟩ : ∃ c, clause? = some c ∧
      Node.detach c = ⟨Token.colon.spaced, inheritedTypesOf o.inherited⟩ := by
    cases clause? with
    | none => cases hclause.trans hsome
    | some c => exact ⟨c, rfl, Option.some.inj (hclause.trans hsome)⟩
  have hline : d.head.keyword.startsLine = true := (congrArg Token.startsLine hkeyword).trans rfl
  have hright : d.block.rightBrace.startsLine = true :=
    (congrArg Token.startsLine (o.braces_of_detach hdetach).2).trans rfl
  have hindent := o.memberIndent_of_detach hdetach hcases
  obtain ⟨display, hdisplay, hprints⟩ := o.exists_membersOf hdetach o.isIndentChar_indent
  rw [← hindent] at hdisplay
  have hreplacement := replacement_of_sole hhead hline (o.contains_of_detach hc hnew) hconformance
    hdisplay hright insertMissing
  refine ⟨a, _, by rw [hhead], ha, hreplacement, ?_⟩
  rw [hindent, o.trimmed_rewritten hdetach ha]
  exact o.source_rewritten hdetach hinherited ha hc conformance hprints

/-! ### The file -/

theorem sourceWith_of_detach {endOfFile : Token} (hend : endOfFile.detached = Token.endOfText)
    (text : Decl → String) :
    SourceFile.sourceWith ⟨[⟨.enum d, none⟩], endOfFile⟩ text = text (.enum d) := by
  have hleading : Node.leading (Decl.enum d) = .empty := by
    have hdecl := d.hasShape.leading_detach
    rw [hdetach] at hdecl
    exact hdecl.symm
  have htrailing : Node.trailing (Decl.enum d) = .empty := by
    have hbrace := congrArg Token.trailing (o.braces_of_detach hdetach).2
    exact d.trailing_eq.trans hbrace
  have hempty : endOfFile.source = "" := congrArg Token.source hend
  have hnone : Node.source (none : Option Token) = "" := rfl
  simp only [SourceFile.sourceWith, Member.sourceWith, List.map_cons, List.map_nil,
    String.join_cons, String.join_nil, hleading, htrailing, hnone, hempty, Trivia.text_empty,
    String.empty_append, String.append_empty]

end

end EnumOutline

/-- The only item of a file is fixed by the one replacement that is proposed for it. -/
theorem Settings.fix_of_proposals {source : String} {d : Decl} {endOfFile : Token}
    (hparse : parseSource source = .ok ⟨[⟨d, none⟩], endOfFile⟩) {s : Settings} {new : NominalDecl}
    (hproposals : s.proposals d = [new]) :
    s.fix source = .ok (SourceFile.sourceWith ⟨[⟨d, none⟩], endOfFile⟩ s.fixedText) ∧
      s.fixedText d = Node.trimmed new := by
  have hone : ¬∃ m ∈ (⟨[⟨d, none⟩], endOfFile⟩ : SourceFile).items, s.AsksTwice m.decl := by
    rintro ⟨m, hm, htwo⟩
    obtain rfl := List.mem_singleton.1 hm
    rw [s.asksTwice_iff, hproposals] at htwo
    simp at htwo
  constructor
  · have happly := applyFixIts_ofFile_of_not_asksTwice hparse s hone
    exact bind_eq_ok.2 ⟨_, expandSource_eq_ok.2 ⟨_, hparse, rfl⟩, happly⟩
  · rw [fixedText, hproposals]

/-- A plain enum that asks for a replacement is fixed to one with a comment in the place of the
attribute, with the conformance behind the inherited types and the display members behind the
cases. -/
theorem fix_outline (o : EnumOutline) (s : Settings) (hinherited : o.inherited ≠ [])
    (hcases : o.cases ≠ []) (hconformance : isIdentifier s.conformance = true)
    (hnew : ∀ type ∈ o.inherited, unticked type ≠ s.conformance) :
    s.fix ("@AppEnumGenFixIt\n" ++ o.text) =
      .ok ("//@AppEnumGenFixIt\n" ++ o.conformingText s.conformance) := by
  have hid : isIdentifier "AppEnumGenFixIt" = true := by decide +kernel
  obtain ⟨d, endOfFile, hparse, hdetach, hend⟩ := o.parseSource_text hid
  obtain ⟨a, new, hattributes, ha, hreplacement, htext⟩ := o.exists_replacement hdetach hinherited
    hcases hconformance hnew s.insertMissingInheritance
  have hproposals : s.proposals (.enum d) = [new] := by
    have hmarker : a.name = EnumReplacement.name := congrArg Attribute.name ha
    have htriggers : Settings.triggers d = [a] := by
      rw [Settings.triggers, hattributes, List.filter_singleton, hmarker]
      rfl
    have hok : s.replacement a d = .ok new := hreplacement
    rw [Settings.proposals, htriggers, List.filterMap_cons, hok]
    rfl
  obtain ⟨hfix, hfixed⟩ := Settings.fix_of_proposals hparse hproposals
  rw [o.sourceWith_of_detach hdetach hend, hfixed, htext] at hfix
  have hstart : ("@" ++ "AppEnumGenFixIt" ++ "\n" : String) = "@AppEnumGenFixIt\n" := by simp
  have hcomment : ("//@" ++ "AppEnumGenFixIt" ++ "\n" : String) = "//@AppEnumGenFixIt\n" := by simp
  rw [hstart, hcomment] at hfix
  exact hfix

/-- Cases behind a tab, and a conformance that one of the inherited types only resembles. -/
def rankOutline : EnumOutline where
  name := "Rank"
  inherited := ["String", "`AppEnums`"]
  cases := [["low"], ["`default`", "größte"]]
  indent := " \t"
  name_valid := by decide +kernel
  inherited_valid := by decide +kernel
  cases_valid := by decide +kernel
  indent_valid := by simp

def rankFixed : String :=
  "//@AppEnumGenFixIt\nenum Rank: String, `AppEnums`, AppEnum \x7b\n" ++
    " \tcase low\n \tcase `default`, größte\n\n" ++
    " \tstatic var typeDisplayRepresentation: TypeDisplayRepresentation = \"Rank\"\n\n" ++
    " \tstatic var caseDisplayRepresentations: [Rank: DisplayRepresentation] = [\n" ++
    " \t\t.low: \"low\",\n \t\t.`default`: \"default\", .größte: \"größte\"\n \t]\n\x7d"

theorem fix_rankOutline : rankOutline.inherited ≠ [] ∧ rankOutline.cases ≠ [] ∧
    isIdentifier (Settings.conformance {}) = true ∧
    (∀ type ∈ rankOutline.inherited, unticked type ≠ Settings.conformance {}) ∧
    Settings.fix {} ("@AppEnumGenFixIt\n" ++ rankOutline.text) = .ok rankFixed := by
  have hconformance : isIdentifier (Settings.conformance {}) = true := by decide +kernel
  have hnew : ∀ type ∈ rankOutline.inherited, unticked type ≠ Settings.conformance {} := by
    decide +kernel
  have htext : "//@AppEnumGenFixIt\n" ++ rankOutline.conformingText (Settings.conformance {}) =
      rankFixed := by decide +kernel
  have hfix := fix_outline rankOutline {} (by decide) (by decide) hconformance hnew
  rw [htext] at hfix
  exact ⟨by decide, by decide, hconformance, hnew, hfix⟩

end EnumForge
