import EnumForge.Proofs.AppEnum.Fixing
import EnumForge.Proofs.AppEnum.Keeping
import EnumForge.Proofs.AppEnum.Layout
import EnumForge.Proofs.AppEnum.Reparsing

/-!
# Plain enums

An outline is what a plain enum consists of: its name, the types it inherits from, and its lists of
cases, each on a line of its own.  Written out behind an attribute, it is parsed to the declaration
that one would put together from it by hand.
-/

namespace EnumForge

open Node (Like)
open Text (isIdentifier)
open Token (Made Meets Ready)
open Grammar (ItemsRead EndsDecl)

/-! ### Names with commas between them -/

/-- The names, each but the last one before a comma, and the last one before `gap`. -/
def nameList (gap : Trivia) : List String → List (Token × Option Token)
  | [] => []
  | [name] => [((Token.plain .identifier name).withTrailing gap, none)]
  | name :: next :: names =>
    (.plain .identifier name, some Token.comma.spaced) :: nameList gap (next :: names)

theorem source_of_beforeComma {α : Type} [Node α] {a : α} {name : String}
    (h : Node.tokens a = [.plain .identifier name, Token.comma.spaced]) :
    Node.source a = name ++ ", " := by
  have hcomma : Token.comma.spaced.source = ", " := rfl
  rw [Node.source, h]
  simp only [List.map_cons, List.map_nil, String.join_cons, String.join_nil, Token.source_plain,
    hcomma, String.append_empty]

theorem source_nameList (gap : Trivia) {names : List String} (hne : names ≠ []) :
    Node.source (nameList gap names) = ", ".intercalate names ++ gap.text := by
  induction names with
  | nil => exact absurd rfl hne
  | cons name names ih =>
    cases names with
    | nil =>
      have hlast : Node.source (nameList gap [name]) =
          ((Token.plain .identifier name).withTrailing gap).source :=
        Node.source_eq_of_tokens rfl
      rw [hlast, String.intercalate_singleton]
      simp [Token.source, Token.plain, Token.withTrailing]
    | cons next names =>
      have hfirst : Node.source ((Token.plain .identifier name, some Token.comma.spaced) :
          Token × Option Token) = name ++ ", " := source_of_beforeComma rfl
      rw [nameList, Node.source_cons, hfirst, ih (by simp), String.intercalate_cons_cons,
        String.append_assoc, String.append_assoc, String.append_assoc]

/-- A list of names keeps apart from what follows it behind a space or on the next line. -/
theorem ready_nameList {gap : Trivia} (hgap : gap = .empty ∨ gap = .spaces 1) {names : List String}
    (hnames : ∀ name ∈ names, isIdentifier name = true) {t : Token} {ts : List Token}
    (ht : Ready (t :: ts)) (hmeets : gap = .spaces 1 ∨ t.leading.text ≠ "") :
    Ready (Node.tokens (nameList gap names) ++ t :: ts) := by
  induction names with
  | nil => exact ht
  | cons name names ih =>
    obtain ⟨hname, hrest⟩ := List.forall_mem_cons.1 hnames
    have hmade := Token.made_identifier hname
    cases names with
    | nil =>
      have hlast : ((Token.plain .identifier name).withTrailing gap).Made :=
        ⟨hmade.cut, hmade.stops, hmade.leading, hgap⟩
      refine hlast.cons ?_ ht
      obtain hspace | hline := hmeets
      · exact .spaced hspace
      · exact .line hline
    | cons next names =>
      have hcomma := (Token.made_of_isPunctuation Token.isPunctuation_comma rfl rfl).spaced
      have hword : Meets (.plain .identifier name) Token.comma.spaced :=
        .apart rfl (by decide) (Token.continues_identifier _ (by decide))
      exact hmade.cons hword (hcomma.cons_of_meets (fun _ ↦ .spaced rfl) (ih hrest))

theorem span_of_nameList (gap : Trivia) (names : List String) :
    ∀ t ∈ Node.tokens (nameList gap names), t.span = none := by
  induction names with
  | nil => simp [nameList, Node.tokens]
  | cons name names ih =>
    cases names with
    | nil => simp [nameList, Node.tokens, Token.plain, Token.withTrailing]
    | cons next names =>
      have htokens : Node.tokens (nameList gap (name :: next :: names)) =
          .plain .identifier name :: Token.comma.spaced ::
            Node.tokens (nameList gap (next :: names)) := rfl
      rw [htokens, List.forall_mem_cons, List.forall_mem_cons]
      exact ⟨rfl, rfl, ih⟩

theorem exists_last_nameList (gap : Trivia) {names : List String} (hne : names ≠ []) :
    ∃ ts last, Node.tokens (nameList gap names) = ts ++ [last] ∧ last.trailing = gap := by
  induction names with
  | nil => exact absurd rfl hne
  | cons name names ih =>
    cases names with
    | nil => exact ⟨[], _, rfl, rfl⟩
    | cons next names =>
      obtain ⟨ts, last, hts, hlast⟩ := ih (by simp)
      have htokens : Node.tokens (nameList gap (name :: next :: names)) =
          .plain .identifier name :: Token.comma.spaced ::
            Node.tokens (nameList gap (next :: names)) := rfl
      rw [hts] at htokens
      exact ⟨_ :: _ :: ts, last, htokens, hlast⟩

theorem map_bare_nameList (gap : Trivia) (names : List String) :
    (nameList gap names).map (fun p ↦ p.1.bare) = names.map (.plain .identifier) := by
  induction names with
  | nil => rfl
  | cons name names ih =>
    cases names with
    | nil => rfl
    | cons next names => exact congrArg (Token.plain .identifier name :: ·) ih

/-- The names as the elements of a case declaration. -/
def caseElementsOf (names : List String) : List CaseElement :=
  (nameList .empty names).map fun p ↦ ⟨p.1, none, none, p.2⟩

/-- The names as the types of an inheritance clause, before a member block. -/
def inheritedTypesOf (names : List String) : List InheritedType :=
  (nameList (.spaces 1) names).map fun p ↦ ⟨.identifier p.1, p.2⟩

theorem tokens_caseElementsOf (names : List String) :
    Node.tokens (caseElementsOf names) = Node.tokens (nameList .empty names) :=
  List.flatMap_map ..

theorem tokens_inheritedTypesOf (names : List String) :
    Node.tokens (inheritedTypesOf names) = Node.tokens (nameList (.spaces 1) names) :=
  List.flatMap_map ..

namespace Grammar

theorem caseElement_name {name : Token} (hname : name.kind = .identifier) {comma : Option Token}
    (hcomma : ∀ c ∈ comma, c.kind = .comma) (rest : List Token)
    (hrest : comma = none → EndsDecl rest) :
    caseElement (name :: (Node.tokens comma ++ rest)) = .ok (⟨name, none, none, comma⟩, rest) := by
  have hnext : ∀ t ∈ (Node.tokens comma ++ rest).head?,
      t.kind = .comma ∨ t.kind = .keyword ∨ t.kind = .rightBrace := by
    cases comma with
    | none => exact fun t ht ↦ .inr (hrest rfl t ht).2
    | some c =>
      rintro t ⟨⟩
      exact .inl (hcomma c rfl)
  have hvalue : groupAt .leftParen (Node.tokens comma ++ rest) =
      .ok (none, Node.tokens comma ++ rest) := by
    refine groupAt_of_head fun t ht hkind ↦ ?_
    have hkinds := hnext t ht
    simp [hkind] at hkinds
  have hinitializer : initializer (Node.tokens comma ++ rest) =
      .ok (none, Node.tokens comma ++ rest) := by
    cases hts : Node.tokens comma ++ rest with
    | nil => rfl
    | cons t ts =>
      rw [initializer, if_neg]
      intro hkind
      have hkinds := hnext t (by rw [hts]; rfl)
      simp [hkind] at hkinds
  have htake : takeKind .comma (Node.tokens comma ++ rest) = (comma, rest) := by
    cases comma with
    | none =>
      cases rest with
      | nil => rfl
      | cons t ts =>
        have hkinds := (hrest rfl t rfl).2
        have hne : t.kind ≠ .comma := by
          intro hkind
          simp [hkind] at hkinds
        exact if_neg hne
    | some c => exact if_pos (hcomma c rfl)
  refine bind_eq_ok.2 ⟨(name, Node.tokens comma ++ rest), by rw [expect, if_pos hname], ?_⟩
  refine bind_eq_ok.2 ⟨_, hvalue, bind_eq_ok.2 ⟨_, hinitializer, ?_⟩⟩
  dsimp only
  rw [htake]
  rfl

theorem caseElements_caseElementsOf {names : List String} (hne : names ≠ []) {rest : List Token}
    (hrest : EndsDecl rest) :
    caseElements (Node.tokens (caseElementsOf names) ++ rest) =
      .ok (caseElementsOf names, rest) := by
  induction names with
  | nil => exact absurd rfl hne
  | cons name names ih =>
    have hname : (Token.plain .identifier name).kind = .identifier := rfl
    cases names with
    | nil =>
      have hcomma : ∀ c ∈ (none : Option Token), c.kind = .comma := by simp
      have hlast := caseElement_name hname hcomma rest fun _ ↦ hrest
      exact caseElements_single hlast rfl
    | cons next names =>
      have hcomma : ∀ c ∈ some Token.comma.spaced, c.kind = .comma := by
        rintro c ⟨⟩
        rfl
      have hfirst := caseElement_name hname hcomma
        (Node.tokens (caseElementsOf (next :: names)) ++ rest) (by simp)
      exact caseElements_cons hfirst rfl (ih (by simp))

theorem inheritedTypes_inheritedTypesOf {names : List String} (hne : names ≠ []) {left : Token}
    (hleft : left.kind = .leftBrace) (ts : List Token) :
    inheritedTypes (Node.tokens (inheritedTypesOf names) ++ left :: ts) =
      .ok (inheritedTypesOf names, left :: ts) := by
  induction names with
  | nil => exact absurd rfl hne
  | cons name names ih =>
    cases names with
    | nil =>
      have hnocomma : takeKind .comma (left :: ts) = (none, left :: ts) := by
        rw [takeKind, if_neg (by simp [hleft])]
      have htype : type ((Token.plain .identifier name).withTrailing (.spaces 1) :: left :: ts) =
          .ok (.identifier _, left :: ts) := type_name rfl (by simp [endsType, hleft])
      have hsingle := inheritedTypes_single htype (by rw [hnocomma]; rfl)
      rw [hnocomma] at hsingle
      exact hsingle
    | cons next names =>
      have hrest : ∃ t us, Node.tokens (inheritedTypesOf (next :: names)) ++ left :: ts = t :: us ∧
          t.kind = .identifier := by
        cases names with
        | nil => exact ⟨_, _, rfl, rfl⟩
        | cons => exact ⟨_, _, rfl, rfl⟩
      have htype : type (Token.plain .identifier name :: Token.comma.spaced ::
          (Node.tokens (inheritedTypesOf (next :: names)) ++ left :: ts)) =
            .ok (.identifier _, _) := type_name rfl rfl
      have htake : takeKind .comma (Token.comma.spaced ::
          (Node.tokens (inheritedTypesOf (next :: names)) ++ left :: ts)) =
            (some Token.comma.spaced, Node.tokens (inheritedTypesOf (next :: names)) ++
              left :: ts) := by
        have hcomma : Token.comma.spaced.kind = .comma := rfl
        rw [takeKind, if_pos hcomma]
      obtain ⟨t, us, hts, hkind⟩ := hrest
      have hall := inheritedTypes_cons htype
        (by rw [htake, hts]; simp [continuesList, hkind]) (by rw [htake]; exact ih (by simp))
      rw [htake] at hall
      exact hall

/-- `case a, b` on a line of its own, before the next line -/
theorem opening_case {keyword : Token} (hkeyword : keyword.bare = Token.ofKeyword "case")
    {names : List String} (hne : names ≠ []) {rest : List Token} (hrest : EndsDecl rest) :
    opening (keyword :: (Node.tokens (caseElementsOf names) ++ rest)) =
      .ok (.leaf (.enumCase ⟨⟨[], []⟩, keyword, caseElementsOf names⟩), rest) := by
  obtain ⟨hkind, htext⟩ : keyword.kind = .keyword ∧ keyword.text = "case" := by
    simpa [Token.bare, Token.plain, Token.ofKeyword] using hkeyword
  have hattributes : attributes (keyword :: (Node.tokens (caseElementsOf names) ++ rest)) =
      .ok ([], keyword :: (Node.tokens (caseElementsOf names) ++ rest)) := by
    rw [attributes, if_neg (by simp [hkind])]
  have hmodifiers : modifiers (keyword :: (Node.tokens (caseElementsOf names) ++ rest)) =
      .ok ([], keyword :: (Node.tokens (caseElementsOf names) ++ rest)) := by
    rw [modifiers, if_neg (by simp [isModifier, htext, modifierWords, Token.isKeyword])]
  have hstart : startOf keyword (Node.tokens (caseElementsOf names) ++ rest).head? = .enumCase := by
    simp [startOf, hkind, htext]
  have hcase : caseDecl ⟨[], []⟩ keyword (Node.tokens (caseElementsOf names) ++ rest) =
      .ok (⟨⟨[], []⟩, keyword, caseElementsOf names⟩, rest) := by
    refine bind_eq_ok.2 ⟨_, caseElements_caseElementsOf hne hrest, ?_⟩
    dsimp only
    rw [if_pos (atDeclEnd_of_endsDecl hrest)]
    rfl
  exact opening_eq_ok.2 ⟨⟨[], []⟩, _, preamble_eq_ok.2 ⟨_, hattributes, hmodifiers⟩,
    .enumCase hstart hcase⟩

/-- `@attribute`, then `enum Name: A, B` on the next line, before a member block -/
theorem opening_attributedEnum {atSign label keyword name left : Token} {ts us : List Token}
    {inheritance? : Option InheritanceClause} (hat : atSign.kind = .atSign)
    (hlabel : label.kind = .identifier)
    (hkeyword : keyword.bare = Token.ofKeyword "enum") (hname : name.kind = .identifier)
    (hgenerics : ∀ t ∈ us.head?, t.kind ≠ .operator)
    (hinheritance : inheritance us = .ok (inheritance?, left :: ts))
    (hleft : left.kind = .leftBrace) :
    opening (atSign :: label :: keyword :: name :: us) =
      .ok (.group (.enum ⟨⟨[⟨atSign, label, none⟩], []⟩, keyword, name, none, inheritance?,
        none⟩), left :: ts) := by
  obtain ⟨hkind, htext⟩ : keyword.kind = .keyword ∧ keyword.text = "enum" := by
    simpa [Token.bare, Token.plain, Token.ofKeyword] using hkeyword
  have harguments : argumentsOf label (keyword :: name :: us) =
      .ok (none, keyword :: name :: us) := by
    unfold argumentsOf
    split
    · refine groupAt_of_head ?_
      rintro t ⟨⟩
      simp [hkind]
    · rfl
  have hfirst : attributeAfter atSign (label :: keyword :: name :: us) =
      .ok (⟨atSign, label, none⟩, keyword :: name :: us) := by
    rw [attributeAfter, if_pos (.inl hlabel)]
    exact bind_eq_ok.2 ⟨_, harguments, rfl⟩
  have hattributes : attributes (atSign :: label :: keyword :: name :: us) =
      .ok ([⟨atSign, label, none⟩], keyword :: name :: us) := by
    refine attributes_cons hat hfirst ?_
    rw [attributes, if_neg (by simp [hkind])]
  have hmodifiers : modifiers (keyword :: name :: us) = .ok ([], keyword :: name :: us) := by
    rw [modifiers, if_neg (by simp [isModifier, htext, modifierWords, Token.isKeyword])]
  have hstart : startOf keyword (name :: us).head? = .enum := by
    simp [startOf, hkind, htext]
  have hnogenerics : generics us = .ok (none, us) := by
    cases us with
    | nil => rfl
    | cons u us => rw [generics, if_neg fun h ↦ hgenerics u rfl h.1]
  have hwhere : whereClause (left :: ts) = (none, left :: ts) := by
    rw [whereClause, if_neg (by simp [Token.isKeyword, hleft])]
  have hhead : nominalHead "an enum name" ⟨[⟨atSign, label, none⟩], []⟩ keyword (name :: us) =
      .ok (⟨⟨[⟨atSign, label, none⟩], []⟩, keyword, name, none, inheritance?, none⟩,
        left :: ts) := by
    refine bind_eq_ok.2 ⟨(name, us), by rw [expect, if_pos hname], ?_⟩
    refine bind_eq_ok.2 ⟨_, hnogenerics, bind_eq_ok.2 ⟨_, hinheritance, ?_⟩⟩
    dsimp only
    rw [hwhere]
    rfl
  exact opening_eq_ok.2 ⟨⟨[⟨atSign, label, none⟩], []⟩, _,
    preamble_eq_ok.2 ⟨_, hattributes, hmodifiers⟩, .enum hstart hhead⟩

end Grammar

/-- The parts of a declaration without modifiers, generic parameters and requirements. -/
theorem NominalDecl.source_plain (as : List Attribute) (keyword name : Token)
    (clause? : Option InheritanceClause) (left right : Token) (ms : List Member) :
    Node.source (⟨⟨⟨as, []⟩, keyword, name, none, clause?, none⟩, ⟨left, ms, right⟩⟩ :
        NominalDecl) =
      Node.source as ++ keyword.source ++ (name.source ++ Node.source clause?) ++ left.source ++
        Node.source ms ++ right.source := by
  have htokens : Node.tokens (⟨⟨⟨as, []⟩, keyword, name, none, clause?, none⟩,
      ⟨left, ms, right⟩⟩ : NominalDecl) = Node.tokens as ++ keyword :: name ::
        (Node.tokens clause? ++ left :: (Node.tokens ms ++ [right])) := by
    rw [Member.tokens_list]
    simp [Node.tokens, NominalDecl.tokens, MemberBlock.tokens]
  rw [Node.source, htokens]
  simp only [Node.source, List.map_append, List.map_cons, List.map_nil, String.join_append,
    String.join_cons, String.join_nil, String.append_assoc, String.append_empty]

theorem NominalDecl.trailing_eq (d : NominalDecl) :
    Node.trailing d = d.block.rightBrace.trailing := by
  obtain ⟨head, ⟨left, ms, right⟩⟩ := d
  have htokens : Node.tokens (⟨head, ⟨left, ms, right⟩⟩ : NominalDecl) =
      Node.tokens head ++ left :: Member.listTokens ms ++ [right] := by
    simp [Node.tokens, NominalDecl.tokens, MemberBlock.tokens]
  rw [Node.trailing, htokens, List.getLast?_concat]
  rfl

/-! ### Outlines -/

/-- A plain enum: names only, and each list of cases on a line of its own. -/
structure EnumOutline where
  name : String
  /-- The types of the inheritance clause, which is left out if there are none. -/
  inherited : List String
  cases : List (List String)
  /-- What stands before each `case`. -/
  indent : String
  name_valid : isIdentifier name = true
  inherited_valid : ∀ type ∈ inherited, isIdentifier type = true
  cases_valid : ∀ names ∈ cases, names ≠ [] ∧ ∀ name ∈ names, isIdentifier name = true
  indent_valid : ∀ c ∈ indent.toList, c = ' ' ∨ c = '\t'

namespace EnumOutline

variable (o : EnumOutline)

/-- `: A, B`, or nothing -/
def clauseText (types : List String) : String :=
  if types.isEmpty then "" else ": " ++ ", ".intercalate types

/-- `enum Name: A, B {` with the given types -/
def headText (types : List String) : String :=
  "enum " ++ o.name ++ clauseText types ++ " \x7b"

/-- A line for each list of cases. -/
def casesText : String :=
  String.join (o.cases.map fun names ↦ "\n" ++ o.indent ++ "case " ++ ", ".intercalate names)

def text : String := o.headText o.inherited ++ o.casesText ++ "\n\x7d"

theorem isIndentChar_indent : ∀ c ∈ o.indent.toList, Trivia.isIndentChar c = true := by
  intro c hc
  simpa [Trivia.isIndentChar] using o.indent_valid c hc

/-! ### The declaration that an outline stands for -/

/-- `@attribute` at the start of the text -/
def marker (name : String) : Attribute := ⟨.plain .atSign "@", .plain .identifier name, none⟩

theorem name_marker (name : String) : (marker name).name = Text.unticked name := rfl

def keyword : Token := (Token.ofKeyword "enum").spaced.withLeading (Trivia.newlines 1)

/-- The name, before its clause or the member block. -/
def nameToken : Token :=
  if o.inherited.isEmpty then (Token.plain .identifier o.name).spaced
  else .plain .identifier o.name

def clause? : Option InheritanceClause :=
  if o.inherited.isEmpty then none
  else some ⟨Token.colon.spaced, inheritedTypesOf o.inherited⟩

def caseKeyword : Token :=
  (Token.ofKeyword "case").spaced.withLeading (Trivia.newlineIndent o.indent)

def caseMember (names : List String) : Member :=
  ⟨.enumCase ⟨⟨[], []⟩, o.caseKeyword, caseElementsOf names⟩, none⟩

def closingBrace : Token := Token.rightBrace.withLeading (Trivia.newlines 1)

/-- The enum with the given attributes before its keyword. -/
def enumWith (attributes : List Attribute) (keyword : Token) : NominalDecl where
  head := ⟨⟨attributes, []⟩, keyword, o.nameToken, none, o.clause?, none⟩
  block := ⟨Token.leftBrace, o.cases.map o.caseMember, closingBrace⟩

/-- The enum behind an attribute on the line above. -/
def declaration (attributeName : String) : NominalDecl := o.enumWith [marker attributeName] keyword

/-! ### The text of the declaration -/

theorem tokens_caseMember (names : List String) : Node.tokens (o.caseMember names) =
    o.caseKeyword :: Node.tokens (nameList .empty names) := by
  rw [← tokens_caseElementsOf]
  exact List.append_nil _

theorem source_caseMember {names : List String} (hne : names ≠ []) :
    Node.source (o.caseMember names) =
      "\n" ++ o.indent ++ "case " ++ ", ".intercalate names := by
  have hkeyword : o.caseKeyword.source = "\n" ++ o.indent ++ "case " :=
    Token.source_newlineIndent rfl o.isIndentChar_indent
  have hnames := source_nameList .empty hne
  rw [Node.source] at hnames
  rw [Node.source, tokens_caseMember, List.map_cons, String.join_cons, hnames, hkeyword,
    Trivia.text_empty, String.append_empty]

theorem source_members : Node.source (o.cases.map o.caseMember) = o.casesText := by
  rw [Member.source_list, List.map_map, casesText]
  refine congrArg String.join (List.map_congr_left fun names hnames ↦ ?_)
  exact o.source_caseMember (o.cases_valid names hnames).1

theorem source_clause : o.nameToken.source ++ Node.source o.clause? =
    o.name ++ clauseText o.inherited ++ " " := by
  unfold nameToken clause? clauseText
  cases hinherited : o.inherited.isEmpty with
  | true =>
    rw [if_pos rfl, if_pos rfl, if_pos rfl, Token.source_spaced_plain, String.append_empty]
    exact String.append_empty
  | false =>
    have hne : o.inherited ≠ [] := by simpa using hinherited
    have htypes := source_nameList (.spaces 1) hne
    have htokens : Node.tokens
        (some ⟨Token.colon.spaced, inheritedTypesOf o.inherited⟩ : Option InheritanceClause) =
          Token.colon.spaced :: Node.tokens (nameList (.spaces 1) o.inherited) :=
      congrArg (Token.colon.spaced :: ·) (tokens_inheritedTypesOf o.inherited)
    have hsigns : Token.colon.spaced.source = ": " ∧ (Trivia.spaces 1).text = " " := ⟨rfl, rfl⟩
    rw [Node.source] at htypes
    rw [if_neg (by simp), if_neg (by simp), if_neg (by simp), Token.source_plain, Node.source,
      htokens, List.map_cons, String.join_cons, htypes, hsigns.1, hsigns.2]
    simp only [String.append_assoc]

theorem tokens_enumWith (attributes : List Attribute) (keyword : Token) :
    Node.tokens (o.enumWith attributes keyword) = Node.tokens attributes ++ keyword ::
      o.nameToken :: (Node.tokens o.clause? ++ Token.leftBrace ::
        (Member.listTokens (o.cases.map o.caseMember) ++ [closingBrace])) := by
  simp [enumWith, Node.tokens, NominalDecl.tokens, MemberBlock.tokens]

theorem tokens_declaration (attributeName : String) : Node.tokens (o.declaration attributeName) =
    .plain .atSign "@" :: .plain .identifier attributeName :: keyword :: o.nameToken ::
      (Node.tokens o.clause? ++ Token.leftBrace ::
        (Member.listTokens (o.cases.map o.caseMember) ++ [closingBrace])) :=
  o.tokens_enumWith _ _

theorem source_marker (attributeName : String) :
    Node.source [marker attributeName] = "@" ++ attributeName := by
  have htokens : Node.tokens [marker attributeName] =
      [.plain .atSign "@", .plain .identifier attributeName] := rfl
  simp only [Node.source, htokens, List.map_cons, List.map_nil, String.join_cons, String.join_nil,
    Token.source_plain, String.append_empty]

theorem source_enumWith (attributes : List Attribute) {keyword : Token} {start : String}
    (hkeyword : keyword.source = start ++ "enum ") :
    Node.source (o.enumWith attributes keyword) = Node.source attributes ++ start ++ o.text := by
  have hbraces : Token.leftBrace.source = "\x7b" ∧ closingBrace.source = "\n\x7d" := ⟨rfl, rfl⟩
  have hleft : (" \x7b" : String) = " " ++ "\x7b" := rfl
  rw [enumWith, NominalDecl.source_plain, source_clause, source_members, hkeyword, hbraces.1,
    hbraces.2, text, headText, hleft]
  simp only [String.append_assoc, -String.reduceAppend]

theorem source_declaration (attributeName : String) :
    Node.source (o.declaration attributeName) = "@" ++ attributeName ++ "\n" ++ o.text := by
  have hkeyword : keyword.source = "\n" ++ "enum " := rfl
  rw [declaration, o.source_enumWith _ hkeyword, source_marker]

/-! ### Reading the declaration -/

theorem starts_members (cases : List (List String)) (t : Token) (ts : List Token) :
    ∃ u us, Member.listTokens (cases.map o.caseMember) ++ t :: ts = u :: us ∧
      (u = o.caseKeyword ∨ u = t) := by
  cases cases with
  | nil => exact ⟨t, ts, rfl, .inr rfl⟩
  | cons names cases => exact ⟨o.caseKeyword, _, rfl, .inl rfl⟩

theorem ready_members {ts : List Token} (hready : Ready (closingBrace :: ts)) :
    Ready (Member.listTokens (o.cases.map o.caseMember) ++ closingBrace :: ts) := by
  have hcases := o.cases_valid
  generalize o.cases = cases at hcases
  induction cases with
  | nil => exact hready
  | cons names cases ih =>
    obtain ⟨⟨hne, hnames⟩, hothers⟩ := List.forall_mem_cons.1 hcases
    have hrest := ih hothers
    obtain ⟨u, us, hus, hu⟩ := o.starts_members cases closingBrace ts
    rw [hus] at hrest
    have hline : u.leading.text ≠ "" := by
      obtain rfl | rfl := hu
      · exact Trivia.text_newlinesIndent_ne 0 o.indent
      · exact Trivia.text_newlinesIndent_ne 0 ""
    have hkeyword : o.caseKeyword.Made := by
      have hmade : (Token.ofKeyword "case").Made := Display.made_keyword (by decide) (by decide)
      exact hmade.spaced.withLeading (Trivia.fresh_newlinesIndent 0 o.indent)
    have htokens : Member.listTokens ((names :: cases).map o.caseMember) ++ closingBrace :: ts =
        o.caseKeyword :: (Node.tokens (nameList .empty names) ++ u :: us) := by
      rw [← hus, ← tokens_caseElementsOf]
      simp [Member.listTokens, Member.tokens, caseMember, Decl.tokens, Node.tokens]
    rw [htokens]
    exact hkeyword.cons_of_meets (fun _ ↦ .spaced rfl)
      (ready_nameList (.inl rfl) hnames hrest (.inr hline))

theorem ready_declaration {attributeName : String} (hname : isIdentifier attributeName = true) :
    Ready (Node.tokens (o.declaration attributeName) ++ [Token.endOfText]) := by
  have hat : (Token.plain .atSign "@").IsPunctuation := ⟨'@', rfl, rfl⟩
  have hattribute := Token.made_identifier hname
  have hkeyword : keyword.Made := by
    have hmade : (Token.ofKeyword "enum").Made := Display.made_keyword (by decide) (by decide)
    exact hmade.spaced.withLeading (Trivia.fresh_newlines 0)
  have hleft := Token.made_of_isPunctuation Token.isPunctuation_leftBrace rfl rfl
  have hclosing : Ready [closingBrace, Token.endOfText] := by
    have hmade := (Token.made_of_isPunctuation Token.isPunctuation_rightBrace rfl rfl).withLeading
      (Trivia.fresh_newlines 0)
    exact hmade.last rfl
  have hblock := hleft.cons_of_meets (fun _ ↦ .punctuation Token.isPunctuation_leftBrace)
    (o.ready_members hclosing)
  have hhead : Ready (o.nameToken :: (Node.tokens o.clause? ++ Token.leftBrace ::
      (Member.listTokens (o.cases.map o.caseMember) ++ [closingBrace, Token.endOfText]))) := by
    have hmade := Token.made_identifier o.name_valid
    unfold nameToken clause?
    cases hinherited : o.inherited.isEmpty with
    | true => exact hmade.spaced.cons (.spaced rfl) hblock
    | false =>
      have hcolon := (Token.made_of_isPunctuation Token.isPunctuation_colon rfl rfl).spaced
      have htypes := ready_nameList (.inr rfl) o.inherited_valid hblock (.inl rfl)
      have hmeets : Meets (.plain .identifier o.name) Token.colon.spaced :=
        .apart rfl (by decide) (Token.continues_identifier _ (by decide))
      rw [← tokens_inheritedTypesOf] at htypes
      exact hmade.cons hmeets (hcolon.cons_of_meets (fun _ ↦ .spaced rfl) htypes)
  have hall := (Token.made_of_isPunctuation hat rfl rfl).cons (.punctuation hat)
    (hattribute.cons (.line (Trivia.text_newlinesIndent_ne 0 ""))
      (hkeyword.cons (.spaced rfl) hhead))
  rw [tokens_declaration]
  simpa using hall

theorem span_of_declaration (attributeName : String) :
    ∀ t ∈ Node.tokens (o.declaration attributeName), t.span = none := by
  have hname : o.nameToken.span = none := by
    unfold nameToken
    split <;> rfl
  have hclause : ∀ t ∈ Node.tokens o.clause?, t.span = none := by
    unfold clause?
    split
    · simp [Node.tokens]
    · have htypes := span_of_nameList (.spaces 1) o.inherited
      rw [← tokens_inheritedTypesOf] at htypes
      exact List.forall_mem_cons.2 ⟨rfl, htypes⟩
  have hmembers : ∀ t ∈ Member.listTokens (o.cases.map o.caseMember), t.span = none := by
    induction o.cases with
    | nil => simp [Member.listTokens]
    | cons names cases ih =>
      have hnames := span_of_nameList .empty names
      rw [← tokens_caseElementsOf] at hnames
      have hmember : ∀ t ∈ Member.tokens (o.caseMember names), t.span = none := by
        have htokens : Member.tokens (o.caseMember names) =
            o.caseKeyword :: (Node.tokens (caseElementsOf names) ++ []) := rfl
        rw [htokens, List.append_nil]
        exact List.forall_mem_cons.2 ⟨rfl, hnames⟩
      rw [List.map_cons, Member.listTokens]
      exact List.forall_mem_append.2 ⟨hmember, ih⟩
  rw [tokens_declaration]
  simp only [List.forall_mem_cons, List.forall_mem_append]
  exact ⟨rfl, rfl, rfl, hname, hclause, rfl, hmembers, rfl, by simp⟩

theorem itemsRead_members :
    ItemsRead (Member.listTokens (o.cases.map o.caseMember) ++ [closingBrace])
      (o.cases.map o.caseMember) [closingBrace] := by
  have hcases := o.cases_valid
  generalize o.cases = cases at hcases
  induction cases with
  | nil => exact .done rfl
  | cons names cases ih =>
    obtain ⟨⟨hne, -⟩, hothers⟩ := List.forall_mem_cons.1 hcases
    have hend : EndsDecl (Member.listTokens (cases.map o.caseMember) ++ [closingBrace]) := by
      obtain ⟨u, us, hus, hu⟩ := o.starts_members cases closingBrace []
      rw [hus]
      rintro t ⟨⟩
      obtain rfl | rfl := hu
      · exact ⟨Trivia.hasNewline_newlinesIndent 1 o.indent, .inl rfl⟩
      · exact ⟨rfl, .inr rfl⟩
    have hkeyword : o.caseKeyword.bare = Token.ofKeyword "case" := rfl
    have hopen := Grammar.opening_case hkeyword hne hend
    have htokens : Member.listTokens ((names :: cases).map o.caseMember) ++ [closingBrace] =
        o.caseKeyword :: (Node.tokens (caseElementsOf names) ++
          (Member.listTokens (cases.map o.caseMember) ++ [closingBrace])) := by
      simp [Member.listTokens, Member.tokens, caseMember, Decl.tokens, Node.tokens]
    rw [htokens]
    exact .leaf_of_endsDecl rfl hopen hend (ih hothers)

theorem inheritance_clause (ts : List Token) :
    Grammar.inheritance (Node.tokens o.clause? ++ Token.leftBrace :: ts) =
      .ok (o.clause?, Token.leftBrace :: ts) := by
  unfold clause?
  cases hinherited : o.inherited.isEmpty with
  | true => rfl
  | false =>
    have hne : o.inherited ≠ [] := by simpa using hinherited
    have hleft : Token.leftBrace.kind = .leftBrace := rfl
    have htypes := Grammar.inheritedTypes_inheritedTypesOf hne hleft ts
    exact bind_eq_ok.2 ⟨_, htypes, rfl⟩

theorem itemsRead_declaration (attributeName : String) :
    ItemsRead (Node.tokens (o.declaration attributeName))
      [⟨.enum (o.declaration attributeName), none⟩] [] := by
  have hname : o.nameToken.kind = .identifier := by
    unfold nameToken
    split <;> rfl
  have hgenerics : ∀ ts, ∀ t ∈ (Node.tokens o.clause? ++ Token.leftBrace :: ts).head?,
      t.kind ≠ .operator := by
    have hcolon : Token.colon.spaced.kind ≠ .operator := by decide
    unfold clause?
    split
    · rintro ts t ⟨⟩
      decide
    · rintro ts t ⟨⟩
      exact hcolon
  rw [tokens_declaration]
  exact .group rfl (Grammar.opening_attributedEnum rfl rfl rfl hname (hgenerics _)
    (o.inheritance_clause _) rfl) rfl o.itemsRead_members rfl (.done rfl)

/-- The text of an outline is parsed to the declaration that the outline stands for. -/
theorem parseSource_text {attributeName : String} (hname : isIdentifier attributeName = true) :
    ∃ d endOfFile, parseSource ("@" ++ attributeName ++ "\n" ++ o.text) =
        .ok ⟨[⟨.enum d, none⟩], endOfFile⟩ ∧
      Node.detach d = o.declaration attributeName ∧ endOfFile.detached = Token.endOfText := by
  have hat : (Token.plain .atSign "@").IsPunctuation := ⟨'@', rfl, rfl⟩
  obtain ⟨d, endOfFile, hparse, -, hdetach, hend⟩ :=
    parseSource_source (d := .enum (o.declaration attributeName)) (o.tokens_declaration _)
      (hat.startsSoft rfl) (o.ready_declaration hname) (o.span_of_declaration _)
      (o.itemsRead_declaration _)
  have hsource : Node.source (Decl.enum (o.declaration attributeName)) =
      "@" ++ attributeName ++ "\n" ++ o.text := o.source_declaration attributeName
  rw [hsource] at hparse
  cases d with
  | enum d =>
    have hdecl : Decl.enum (Node.detach d) = .enum (o.declaration attributeName) := hdetach
    exact ⟨d, endOfFile, hparse, Decl.enum.inj hdecl, hend⟩
  | nominal | extension | enumCase | binding | raw => cases hdetach

/-! ### What is read off the declaration -/

section

variable {attributeName : String} {d : NominalDecl}
  (hdetach : Node.detach d = o.declaration attributeName)
include hdetach

theorem head_of_detach : ∃ a clause?,
    d.head = ⟨⟨[a], []⟩, d.head.keyword, d.head.name, none, clause?, none⟩ ∧
      Node.detach a = marker attributeName ∧ d.head.keyword.detached = keyword ∧
      d.head.name.detached = o.nameToken ∧ Node.detach clause? = o.clause? := by
  obtain ⟨⟨⟨attributes, modifiers⟩, keyword', name, generics, clause?, requirements⟩, block⟩ := d
  have hattributes : Node.detach attributes = [marker attributeName] :=
    congrArg (·.head.preamble.attributes) hdetach
  have hmodifiers : Node.detach modifiers = [] := congrArg (·.head.preamble.modifiers) hdetach
  have hgenerics : Node.detach generics = none := congrArg (·.head.generics) hdetach
  have hrequirements : Node.detach requirements = none := congrArg (·.head.whereClause) hdetach
  rw [Node.detach, Node.mapTokens_list] at hattributes hmodifiers
  obtain ⟨a, rfl, ha⟩ := List.map_eq_singleton_iff.1 hattributes
  obtain rfl := List.map_eq_nil_iff.1 hmodifiers
  cases generics with
  | some => cases hgenerics
  | none =>
    cases requirements with
    | some => cases hrequirements
    | none =>
      exact ⟨a, clause?, rfl, ha, congrArg (·.head.keyword) hdetach,
        congrArg (·.head.name) hdetach, congrArg (·.head.inheritance) hdetach⟩

theorem braces_of_detach :
    d.block.leftBrace.detached = Token.leftBrace ∧ d.block.rightBrace.detached = closingBrace := by
  obtain ⟨head, ⟨left, members, right⟩⟩ := d
  exact ⟨congrArg (·.block.leftBrace) hdetach, congrArg (·.block.rightBrace) hdetach⟩

theorem name_of_detach : d.head.name.text = o.name := by
  have htext : o.nameToken.text = o.name := by
    unfold nameToken
    split <;> rfl
  obtain ⟨head, block⟩ := d
  exact (congrArg (·.head.name.text) hdetach).trans htext

theorem isIdentifier_of_detach : isIdentifier d.head.name.text = true := by
  rw [o.name_of_detach hdetach]
  exact o.name_valid

theorem members_of_detach :
    d.block.members.map Node.detach = o.cases.map o.caseMember := by
  obtain ⟨head, ⟨left, members, right⟩⟩ := d
  have hmembers : Node.detach members = o.cases.map o.caseMember := by
    have hwalk := Member.mapTokensM_list (m := Id) (fun t ↦ pure t.detached) members
    exact (congrArg Id.run hwalk).trans (congrArg (·.block.members) hdetach)
  rwa [Node.detach, Node.mapTokens_list] at hmembers

theorem detach_of_mem_members {m : Member} (hm : m ∈ d.block.members) :
    ∃ names ∈ o.cases, Node.detach m = o.caseMember names := by
  have hmem : Node.detach m ∈ o.cases.map o.caseMember := by
    rw [← o.members_of_detach hdetach]
    exact List.mem_map_of_mem hm
  obtain ⟨names, hnames, heq⟩ := List.mem_map.1 hmem
  exact ⟨names, hnames, heq.symm⟩

theorem isEnumCase_of_detach : ∀ m ∈ d.block.members, m.decl.isEnumCase = true := by
  intro m hm
  obtain ⟨names, -, hnames⟩ := o.detach_of_mem_members hdetach hm
  obtain ⟨decl, semicolon⟩ := m
  cases decl with
  | enumCase d => rfl
  | enum | nominal | extension | binding | raw => cases hnames

theorem cases_of_detach : d.block.cases = Display.entriesFrom 0 o.cases := by
  have hlike : Node.Like (o.cases.map o.caseMember) d.block.members := by
    rw [← o.members_of_detach hdetach, Node.like_list_iff, List.map_map]
    exact List.map_congr_left fun m _ ↦ m.hasShape.like_detach
  have hnames : (o.cases.map o.caseMember).filterMap Member.caseNames? =
      o.cases.map fun names ↦ names.map (.plain .identifier) := by
    rw [List.filterMap_map]
    refine List.filterMap_eq_map_iff_forall_eq_some.2 fun names _ ↦ ?_
    have hbare : (caseElementsOf names).map (fun e ↦ e.name.bare) =
        names.map (.plain .identifier) := by
      rw [← map_bare_nameList .empty, caseElementsOf, List.map_map]
      rfl
    exact congrArg some hbare
  rw [MemberBlock.cases_eq, Member.filterMap_caseNames?_of_like hlike, hnames, List.zipIdx_map,
    List.flatMap_map, Display.entriesFrom]
  simp [Function.comp_def]

/-- The display members can be made at every indentation. -/
theorem exists_membersOf {indent : String}
    (hindent : ∀ c ∈ indent.toList, Trivia.isIndentChar c = true) :
    ∃ display, Display.membersOf d indent = .ok display ∧
      display.Prints o.name indent (indent ++ Display.indentStep indent) o.cases := by
  obtain ⟨display, hdisplay, hprints⟩ :=
    Display.exists_members (o.isIdentifier_of_detach hdetach) hindent o.cases_valid
  rw [← o.cases_of_detach hdetach] at hdisplay
  rw [o.name_of_detach hdetach] at hprints
  exact ⟨display, hdisplay, hprints⟩

end

end EnumOutline

end EnumForge
