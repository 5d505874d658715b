import EnumForge.Proofs.AppEnum.Keeping
import EnumForge.Proofs.AppEnum.Layout
import EnumForge.Proofs.Grammar.Locating

/-!
# Replacing a replacement

With its attribute enabled again, a proposed enum is proposed once more: each step of the
replacement finds its work done.  Only the indentation is told anew, from the first member, which
may be another one; where it is not, the same enum comes out with its trivia.
-/

namespace EnumForge

open Node (Like HasShape mapTokens modifyToken)

/-- Kind, text and place of the token. -/
def Token.withoutTrivia (t : Token) : Token := (t.withLeading .empty).withTrailing .empty

theorem Text.unticked_of_notMem {text : String} (h : '\x60' ∉ text.toList) :
    unticked text = text := by
  have hnone : unticked? text.toList = none := by
    cases hcs : text.toList with
    | nil => rfl
    | cons c cs =>
      rw [hcs] at h
      have hc : c ≠ '\x60' := fun heq ↦ h (heq ▸ List.mem_cons_self)
      simp [unticked?, hc]
  rw [unticked, hnone]

/-- An enum that stands in a source, at any depth. -/
def NominalDecl.Parsed (d : NominalDecl) : Prop :=
  ∃ source f path m, parseSource source = .ok f ∧ Member.find? path f.items = some m ∧
    m.decl = .enum d

theorem NominalDecl.Parsed.of_parseDecl {source : String} {d : NominalDecl}
    (h : parseDecl source = .ok (.enum d)) : d.Parsed := by
  obtain ⟨f, m, hf, hitems, hdecl⟩ := parseDecl_eq_ok.1 h
  refine ⟨source, f, [0], m, hf, ?_, hdecl⟩
  rw [hitems]
  rfl

/-- The tokens of an enum stand together in its source. -/
theorem NominalDecl.Parsed.exists_infix {d : NominalDecl} (h : d.Parsed) :
    ∃ source s, TokenStream.ofSource source = .ok s ∧ Node.tokens d <:+: s.tokens := by
  obtain ⟨source, f, path, m, hparse, hfind, hdecl⟩ := h
  obtain ⟨s, hs, hread, -⟩ := parseSource_eq_ok.1 hparse
  have hitems := hread.tokens_append
  rw [List.append_nil] at hitems
  have hinfix : Node.tokens d <:+: Node.tokens m := by
    obtain ⟨decl, semicolon⟩ := m
    obtain rfl : decl = .enum d := hdecl
    exact ⟨[], Node.tokens semicolon, rfl⟩
  refine ⟨source, s, hs, ?_⟩
  rw [← hitems]
  exact hinfix.trans (Member.tokens_infix_of_find? hfind)

theorem NominalDecl.Parsed.pairwise_span {d : NominalDecl} (h : d.Parsed) :
    (Node.tokens d).Pairwise fun t u ↦ t.span ≠ u.span := by
  obtain ⟨source, s, hs, hinfix⟩ := h.exists_infix
  have hplaced := (Token.placed_append.1 (TokenStream.placed_of_ofSource hs)).1
  have hdistinct := Token.pairwise_span_of_placed hplaced fun t ht ↦
    TokenStream.text_ne_empty_of_ofSource hs ht
  exact hdistinct.sublist hinfix.sublist

/-! ### The display members at another indentation -/

namespace Display

theorem exists_elements_indent {indent : String} {previous : Option CaseEntry}
    {es : List CaseEntry} {ds : List DictionaryElement}
    (h : elements indent previous es = .ok ds) (indent' : String) :
    ∃ ds', elements indent' previous es = .ok ds' ∧
      ds'.map (mapTokens Token.withoutTrivia) = ds.map (mapTokens Token.withoutTrivia) := by
  induction es generalizing previous ds with
  | nil =>
    simp only [elements, pure, Except.pure, Except.ok.injEq] at h
    exact ⟨[], rfl, by rw [← h]⟩
  | cons e es ih =>
    obtain ⟨d, rest, hd, hrest, rfl⟩ := elements_cons_eq_ok.1 h
    obtain ⟨rest', hrest', hmap⟩ := ih hrest
    obtain ⟨hid, rfl⟩ := element_eq_ok.1 hd
    refine ⟨_, elements_cons_eq_ok.2 ⟨_, rest', element_eq_ok.2 ⟨hid, rfl⟩, hrest', rfl⟩, ?_⟩
    rw [List.map_cons, List.map_cons, hmap]
    congr 1
    split <;> rfl

theorem exists_mapping_indent {cases : List CaseEntry} {indent : String} {value : Expr}
    (h : mapping cases indent = .ok value) (indent' : String) :
    ∃ value', mapping cases indent' = .ok value' ∧
      mapTokens Token.withoutTrivia value' = mapTokens Token.withoutTrivia value := by
  cases cases with
  | nil => exact ⟨value, h, rfl⟩
  | cons e es =>
    obtain ⟨ds, hds, h⟩ := bind_eq_ok.1 h
    obtain ⟨ds', hds', hmap⟩ := exists_elements_indent hds (indent' ++ indentStep indent')
    simp only [pure, Except.pure, Except.ok.injEq] at h
    subst h
    refine ⟨.dictionary Token.leftSquare ds'
      (Token.rightSquare.withLeading (Trivia.newlineIndent indent')), ?_, ?_⟩
    · exact bind_eq_ok.2 ⟨ds', hds', rfl⟩
    · rw [Grammar.mapTokens_dictionary, Grammar.mapTokens_dictionary, hmap]
      rfl

/-- The same members at another indentation, but for trivia. -/
theorem exists_membersOf_indent {d : NominalDecl} {indent : String} {ms : Members}
    (h : membersOf d indent = .ok ms) (indent' : String) :
    ∃ ms', membersOf d indent' = .ok ms' ∧ ms'.typeDisplay = ms.typeDisplay ∧
      mapTokens Token.withoutTrivia ms'.caseDisplay =
        mapTokens Token.withoutTrivia ms.caseDisplay := by
  obtain ⟨b, hb, rfl⟩ := membersOf_eq_ok.1 h
  obtain ⟨value, hid, hvalue, rfl⟩ := caseDisplay_eq_ok.1 hb
  obtain ⟨value', hvalue', hmap⟩ := exists_mapping_indent hvalue indent'
  refine ⟨_, membersOf_eq_ok.2 ⟨_, caseDisplay_eq_ok.2 ⟨value', hid, hvalue', rfl⟩, rfl⟩, rfl, ?_⟩
  exact congrArg (fun v ↦ BindingDecl.mk _ _ _ _ (some ⟨Token.equal, v⟩) none) hmap

/-- The members depend on the text of the name and on the cases only. -/
theorem membersOf_congr {d d' : NominalDecl} (hname : d'.head.name.bare = d.head.name.bare)
    (hcases : d'.block.cases = d.block.cases) (indent : String) :
    membersOf d' indent = membersOf d indent := by
  have htext : d'.head.name.text = d.head.name.text := by injection hname
  simp only [membersOf, members, typeDisplay, caseDisplay, Token.name, htext, hcases]

end Display

namespace EnumReplacement

variable {conformance : String} {insertMissing : Bool} {a : Attribute} {old new : NominalDecl}

/-- The enum with its `i`-th attribute enabled. -/
def enable (i : Nat) (d : NominalDecl) : NominalDecl :=
  { d with head.preamble.attributes :=
      d.head.preamble.attributes.modify i fun b ↦ { b with atSign.text := "@" } }

/-! ### The attribute -/

/-- The disabled attribute, enabled. -/
def enabled (a : Attribute) : Attribute := { commentOut a with atSign.text := "@" }

theorem text_commentOut (a : Attribute) : (commentOut a).atSign.text = "//@" :=
  congrArg (fun b : Attribute ↦ b.atSign.text) (like_commentOut a).symm

theorem commentOut_enabled (a : Attribute) : commentOut (enabled a) = commentOut a := by
  have hsign : { enabled a with atSign.text := "//@" } = commentOut a := by
    rw [enabled, ← text_commentOut a]
  rw [commentOut, hsign, commentOut]
  exact (Attribute.hasShape _).trimTrailing_trimTrailing (Attribute.hasShape _)

theorem leading_commentOut (a : Attribute) : (commentOut a).atSign.leading = a.atSign.leading :=
  (Attribute.hasShape { a with atSign.text := "//@" }).leading_setTrailing _

theorem span_commentOut (a : Attribute) : (commentOut a).atSign.span = a.atSign.span := by
  have hedit : mapTokens Token.withoutTrivia (commentOut a) =
      mapTokens Token.withoutTrivia { a with atSign.text := "//@" } :=
    (Attribute.hasShape _).mapTokens_modifyToken _ fun _ ↦ rfl
  have hspan := congrArg (fun b : Attribute ↦ b.atSign.span) hedit
  exact hspan

/-- In a source no earlier attribute is equal to the one that is enabled again. -/
theorem enabled_notMem (hparsed : old.Parsed) {before after : List Attribute}
    (hsplit : old.head.preamble.attributes = before ++ a :: after) : enabled a ∉ before := by
  intro hmem
  have hdistinct := hparsed.pairwise_span
  obtain ⟨rest, hrest⟩ := old.exists_tokens_eq_front
  have htokens : Node.tokens old = Node.tokens before ++ (a.atSign :: a.nameToken ::
      (Node.tokens a.arguments ++ Node.tokens after ++ Node.tokens old.head.preamble.modifiers ++
        old.head.keyword :: rest)) := by
    rw [hrest]
    simp [NominalDecl.front, Node.tokens, hsplit]
  rw [htokens] at hdistinct
  have hsign : (enabled a).atSign ∈ Node.tokens before :=
    List.mem_flatMap.2 ⟨enabled a, hmem, List.mem_cons_self⟩
  exact (List.pairwise_append.1 hdistinct).2.2 _ hsign a.atSign List.mem_cons_self
    (span_commentOut a)

theorem attributes_enable {before after : List Attribute}
    (hnew : new.front = disabledFront before after a old) :
    (enable before.length new).head.preamble.attributes =
      before ++ enabled a :: (moved a after old).1 := by
  have hattributes : new.head.preamble.attributes =
      before ++ [commentOut a] ++ (moved a after old).1 :=
    congrArg (fun p : Preamble × Token ↦ p.1.attributes) hnew
  rw [enable, hattributes, List.modify_eq_take_cons_drop (by simp)]
  simp [enabled]

/-- Disabling the attribute again gives the proposed enum. -/
theorem disable_enable (hparsed : old.Parsed) {before after : List Attribute}
    (hsplit : old.head.preamble.attributes = before ++ a :: after)
    (hnew : new.front = disabledFront before after a old) :
    disable (enabled a) (enable before.length new) = new := by
  have hmoved : moved (enabled a) (moved a after old).1 (enable before.length new) =
      moved a after old := by
    have hparts : ((moved a after old).1, (enable before.length new).head.preamble.modifiers,
        (enable before.length new).head.keyword) = moved a after old :=
      congrArg (fun p : Preamble × Token ↦ ((moved a after old).1, p.1.modifiers, p.2)) hnew
    rw [moved, hparts]
    -- The token behind the attribute starts a line since the first time.
    refine (hasShape_rest _).modifyToken_of_eq fun t ht ↦ ?_
    rw [tokens_moved, List.getElem?_modify] at ht
    obtain ⟨u, -, rfl⟩ := Option.map_eq_some_iff.1 (Option.mem_def.1 ht)
    exact Token.onOwnLine_of_startsLine _ (Token.startsLine_onOwnLine _ u)
  rw [disable_eq (attributes_enable hnew) (enabled_notMem hparsed hsplit), disabledFront,
    commentOut_enabled, hmoved]
  obtain ⟨head, block⟩ := new
  rw [← disabledFront, ← hnew]
  rfl

/-! ### The inheritance clause -/

/-- A conformance is added once. -/
theorem Conforms.again (hticks : Text.unticked conformance = conformance) {h h' : NominalHead}
    (hconforms : Conforms conformance insertMissing h h') :
    Conforms conformance insertMissing h' h' := by
  have hcontains {c : InheritanceClause} {entry : Token} (htext : entry.text = conformance)
      (hentry : ⟨.identifier entry, none⟩ ∈ c.types) : c.contains conformance = true := by
    refine List.any_eq_true.2 ⟨_, hentry, ?_⟩
    simp [TypeRef.nominalName?, Token.name, htext, hticks]
  cases hconforms with
  | listed hclause hlisted => exact .listed hclause hlisted
  | added hclause hlisted hid =>
    refine .listed rfl (hcontains ?_ (List.mem_append_right _ List.mem_cons_self))
    rfl
  | absent hclause hinsert => exact .absent hclause hinsert
  | inserted hclause hinsert hid => exact .listed rfl (hcontains rfl List.mem_cons_self)

/-! ### The members -/

theorem isEnumCase_of_like {m m' : Member} (h : Like m m') :
    m'.decl.isEnumCase = m.decl.isEnumCase := by
  have hbare (m : Member) : (mapTokens Token.bare m).decl.isEnumCase = m.decl.isEnumCase := by
    obtain ⟨decl, semicolon⟩ := m
    cases decl <;> rfl
  rw [← hbare m', ← hbare m, h]

theorem modifyLast_modifyLast (ms : List Member) :
    modifyLast Node.trimTrailing (modifyLast Node.trimTrailing ms) =
      modifyLast Node.trimTrailing ms := by
  have htrim : (Node.trimTrailing : Member → Member) ∘ Node.trimTrailing = Node.trimTrailing :=
    funext fun m ↦ (Member.hasShape m).trimTrailing_trimTrailing (Member.hasShape _)
  simp only [modifyLast, List.length_modify, List.modify_modify_eq, htrim]

theorem isEnumCase_of_mem_modifyLast {ms : List Member} {m : Member}
    (hm : m ∈ modifyLast Node.trimTrailing (ms.filter (·.decl.isEnumCase))) :
    m.decl.isEnumCase = true := by
  obtain ⟨i, hi⟩ := List.mem_iff_getElem?.1 hm
  rw [modifyLast, List.getElem?_modify] at hi
  obtain ⟨m', hm', rfl⟩ := Option.map_eq_some_iff.1 hi
  have hcase := (List.mem_filter.1 (List.mem_of_getElem? hm')).2
  split
  next =>
    rw [isEnumCase_of_like (Member.hasShape m').like_trimTrailing]
    exact hcase
  next => exact hcase

/-- The cases are kept as they are when the members are rebuilt again. -/
theorem rebuiltMembers_rebuiltMembers (ms : List Member) (indent indent' : String)
    (display display' : Display.Members) :
    rebuiltMembers (rebuiltMembers ms indent display) indent' display' =
      rebuiltMembers ms indent' display' := by
  have hkept : (rebuiltMembers ms indent display).filter (·.decl.isEnumCase) =
      modifyLast Node.trimTrailing (ms.filter (·.decl.isEnumCase)) := by
    rw [rebuiltMembers, List.filter_append,
      List.filter_eq_self.2 fun m hm ↦ isEnumCase_of_mem_modifyLast hm]
    simp [ConformanceExtension.bindingMember, Decl.isEnumCase]
  rw [rebuiltMembers, hkept, modifyLast_modifyLast]
  rfl

/-! ### Indentation -/

theorem leading_of_attributes {d : NominalDecl} {b : Attribute} {bs : List Attribute}
    (h : d.head.preamble.attributes = b :: bs) : Node.leading d = b.atSign.leading := by
  obtain ⟨head, block⟩ := d
  dsimp only at h
  simp [Node.leading, Node.tokens, NominalDecl.tokens, h]

theorem leading_enable {before after : List Attribute}
    (hsplit : old.head.preamble.attributes = before ++ a :: after)
    (hnew : new.front = disabledFront before after a old) :
    Node.leading (enable before.length new) = Node.leading old := by
  have hattributes := attributes_enable hnew
  cases before with
  | nil =>
    rw [leading_of_attributes hattributes, leading_of_attributes hsplit]
    exact leading_commentOut a
  | cons b before => rw [leading_of_attributes hattributes, leading_of_attributes hsplit]

theorem isIndentChar_memberIndent (d : NominalDecl) :
    ∀ c ∈ (memberIndent d).toList, Trivia.isIndentChar c = true := by
  have houter : ∀ c ∈ (Node.indentation d).toList, Trivia.isIndentChar c = true := by
    unfold Node.indentation
    cases h : (Node.leading d).indentation with
    | none => simp
    | some indent => exact Trivia.isIndentChar_of_indentation h
  unfold memberIndent
  cases h : (d.block.members.head?).bind fun m ↦ (Node.leading m).indentation with
  | none =>
    intro c hc
    simp only [Option.getD_none, String.toList_append, List.mem_append] at hc
    obtain hc | hc := hc
    · exact houter c hc
    · exact Display.isIndentChar_indentStep _ c hc
  | some indent =>
    obtain ⟨m, -, hm⟩ := Option.bind_eq_some_iff.1 h
    exact Trivia.isIndentChar_of_indentation hm

/-- Display members are found at the indentation that they were put at. -/
theorem indentation_bindingMember {indent : String}
    (hindent : ∀ c ∈ indent.toList, Trivia.isIndentChar c = true) (n : Nat) (b : BindingDecl) :
    (Node.leading
      (ConformanceExtension.bindingMember (Trivia.newlinesIndent n indent) b)).indentation =
        some indent := by
  rw [ConformanceExtension.leading_bindingMember, Trivia.indentation_newlinesIndent,
    List.filter_eq_self.2 hindent, String.ofList_toList]

/-- The first member is a case, or no member is one. -/
def CaseFirst (b : MemberBlock) : Prop :=
  (∃ m ∈ b.members.head?, m.decl.isEnumCase = true) ∨ ∀ m ∈ b.members, m.decl.isEnumCase = false

theorem leading_head_modifyLast (ms : List Member) :
    ((modifyLast Node.trimTrailing ms).head?).map Node.leading = ms.head?.map Node.leading := by
  rcases ms with - | ⟨m, - | ⟨m', ms⟩⟩
  · rfl
  · exact congrArg some ((Member.hasShape m).leading_setTrailing _)
  · rfl

theorem memberIndent_eq (d : NominalDecl) : memberIndent d =
    (((d.block.members.head?).map Node.leading).bind Trivia.indentation).getD
      (Node.indentation d ++ Display.indentStep (Node.indentation d)) := by
  rw [memberIndent]
  cases d.block.members.head? <;> rfl

theorem memberIndent_enable {before after : List Attribute} {display : Display.Members}
    (hsplit : old.head.preamble.attributes = before ++ a :: after)
    (hnew : new.front = disabledFront before after a old)
    (hmembers : new.block.members = rebuiltMembers old.block.members (memberIndent old) display)
    (hfirst : CaseFirst old.block) :
    memberIndent (enable before.length new) = memberIndent old := by
  have houter : Node.indentation (enable before.length new) = Node.indentation old := by
    rw [Node.indentation, Node.indentation, leading_enable hsplit hnew]
  have hblock : (enable before.length new).block = new.block := rfl
  rw [memberIndent_eq, houter, hblock, hmembers, rebuiltMembers]
  obtain ⟨m, hm, hcase⟩ | hnone := hfirst
  · -- The first case is the first member, and no edit touches what stands before it.
    obtain ⟨ms, hms⟩ := List.head?_eq_some_iff.1 hm
    have hhead := leading_head_modifyLast (m :: ms.filter (·.decl.isEnumCase))
    have hfilter : old.block.members.filter (·.decl.isEnumCase) =
        m :: ms.filter (·.decl.isEnumCase) := by
      rw [hms]
      exact List.filter_cons_of_pos hcase
    have hne : modifyLast Node.trimTrailing (m :: ms.filter (·.decl.isEnumCase)) ≠ [] := by
      simp [modifyLast]
    rw [memberIndent_eq, hfilter, List.head?_append_of_ne_nil _ hne, hhead, hms]
    rfl
  · have hfilter : old.block.members.filter (·.decl.isEnumCase) = [] := by
      rw [List.filter_eq_nil_iff]
      intro m hm
      simp [hnone m hm]
    have hindent := indentation_bindingMember (isIndentChar_memberIndent old) 2 display.typeDisplay
    rw [hfilter]
    simp only [modifyLast, List.modify_nil, List.nil_append, List.map_cons, List.head?_cons,
      Option.map_some, Option.bind_some, hindent, Option.getD_some]

/-! ### The whole enum -/

theorem mapTokens_bindingMember (leading : Trivia) (b : BindingDecl) :
    mapTokens Token.withoutTrivia (ConformanceExtension.bindingMember leading b) =
      ⟨.binding (mapTokens Token.withoutTrivia b), none⟩ := by
  have hleading : mapTokens Token.withoutTrivia (Node.setLeading leading b) =
      mapTokens Token.withoutTrivia b := b.hasShape.mapTokens_modifyToken 0 fun _ ↦ rfl
  exact congrArg (fun b ↦ Member.mk (.binding b) none) hleading

/-- Enums with the same cases and display members, but for trivia. -/
theorem mapTokens_rebuilt (head : NominalHead) (left right : Token) (ms : List Member)
    (indent indent' : String) {display display' : Display.Members}
    (htype : display'.typeDisplay = display.typeDisplay)
    (hcase : mapTokens Token.withoutTrivia display'.caseDisplay =
      mapTokens Token.withoutTrivia display.caseDisplay) :
    mapTokens Token.withoutTrivia
        (NominalDecl.mk head ⟨left, rebuiltMembers ms indent' display', right⟩) =
      mapTokens Token.withoutTrivia
        (NominalDecl.mk head ⟨left, rebuiltMembers ms indent display, right⟩) := by
  have hmembers : (rebuiltMembers ms indent' display').map (mapTokens Token.withoutTrivia) =
      (rebuiltMembers ms indent display).map (mapTokens Token.withoutTrivia) := by
    simp only [rebuiltMembers, List.map_append, List.map_cons, List.map_nil,
      mapTokens_bindingMember, htype, hcase]
  have hblock : mapTokens Token.withoutTrivia
        (MemberBlock.mk left (rebuiltMembers ms indent' display') right) =
      mapTokens Token.withoutTrivia
        (MemberBlock.mk left (rebuiltMembers ms indent display) right) := by
    rw [MemberBlock.mapTokens_mk, MemberBlock.mapTokens_mk, hmembers]
  exact congrArg (NominalDecl.mk (mapTokens Token.withoutTrivia head)) hblock

/-- A proposed enum, its attribute enabled again, is proposed again. -/
theorem proposes_enable (hparsed : old.Parsed) (hticks : '\x60' ∉ conformance.toList)
    (ha : a ∈ old.head.preamble.attributes) (h : Proposes conformance insertMissing a old new) :
    ∃ i b again, i = old.head.preamble.attributes.idxOf a ∧
      (enable i new).head.preamble.attributes[i]? = some b ∧
      Proposes conformance insertMissing b (enable i new) again ∧
      mapTokens Token.withoutTrivia again = mapTokens Token.withoutTrivia new ∧
      (CaseFirst old.block → again = new) := by
  obtain ⟨before, after, display, hsplit, -, hidx, hhead, hdisplay, hblock⟩ :=
    steps_of_proposes ha h
  have hsame := hhead.sameHead
  have hfront : new.front = disabledFront before after a old :=
    Prod.ext hsame.preamble hsame.keyword
  have hcases : (enable before.length new).block.cases = old.block.cases :=
    cases_of_rebuilt (congrArg MemberBlock.members hblock)
  have hname : (enable before.length new).head.name.bare = old.head.name.bare := hsame.name
  obtain ⟨display', hdisplay', htype, hcase⟩ :=
    Display.exists_membersOf_indent hdisplay (memberIndent (enable before.length new))
  refine ⟨before.length, enabled a, ⟨new.head, ⟨old.block.leftBrace,
    rebuiltMembers old.block.members (memberIndent (enable before.length new)) display',
    old.block.rightBrace.onOwnLine (Node.indentation old)⟩⟩, hidx.symm, ?_,
    proposes_iff.2 (replacement_eq_ok.2 ⟨?_, ?_⟩), ?_, ?_⟩
  · rw [attributes_enable hfront]
    simp
  · rw [disable_enable hparsed hsplit hfront]
    exact conforming_eq_ok.2 (hhead.again (Text.unticked_of_notMem hticks))
  · rw [disable_enable hparsed hsplit hfront, rebuild_eq_ok]
    refine ⟨display', ?_, ?_⟩
    · rw [Display.membersOf_congr hname hcases, hdisplay']
    · rw [hblock, rebuiltMembers_rebuiltMembers,
        Token.onOwnLine_of_startsLine _ (Token.startsLine_onOwnLine _ _)]
  · obtain ⟨head, block⟩ := new
    obtain rfl := hblock
    exact mapTokens_rebuilt head _ _ _ _ _ htype hcase
  · intro hfirst
    have hindent := memberIndent_enable hsplit hfront (congrArg MemberBlock.members hblock) hfirst
    rw [hindent] at hdisplay'
    obtain rfl : display = display' := Except.ok.inj (hdisplay.symm.trans hdisplay')
    obtain ⟨head, block⟩ := new
    obtain rfl := hblock
    rw [hindent]

/-- The attribute stands among others, and the first case follows its brace. -/
def denseEnum : String :=
  "@objc @AppEnumGenFixIt  @frozen enum B: Codable \x7b case a // one\n\tvar x = 1; case b \x7d"

theorem proposes_enable_denseEnum : ∃ old a new, parseDecl denseEnum = .ok (.enum old) ∧
    Proposes "AppEnum" false a old new ∧ ∃ i b, i = old.head.preamble.attributes.idxOf a ∧
      (enable i new).head.preamble.attributes[i]? = some b ∧
      Proposes "AppEnum" false b (enable i new) new := by
  have hrun : ((proposal? "AppEnum" false 1 denseEnum).any fun p ↦
      p.1.block.members.head?.any (·.decl.isEnumCase)) = true := by decide +kernel
  obtain ⟨⟨old, a, new⟩, hproposal, hfirst⟩ := (Option.any_eq_true _ _).1 hrun
  obtain ⟨m, hm, hcase⟩ := (Option.any_eq_true _ _).1 hfirst
  obtain ⟨hparse, ha, hproposes⟩ := of_proposal? hproposal
  obtain ⟨i, b, again, hi, hb, hagain, -, heq⟩ := proposes_enable (.of_parseDecl hparse) (by decide)
    (List.mem_of_getElem? ha) hproposes
  rw [heq (.inl ⟨m, hm, hcase⟩)] at hagain
  exact ⟨old, a, new, hparse, hproposes, i, b, hi, hb, hagain⟩

end EnumReplacement

end EnumForge
