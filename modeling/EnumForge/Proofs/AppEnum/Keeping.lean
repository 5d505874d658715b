import EnumForge.Proofs.AppEnum.Steps

/-!
# What a replacement keeps

A replacement changes the sign of one attribute, the inheritance clause and the members of an enum,
and the trivia around them.  Everything else is the same but for trivia, and so are the cases.
-/

namespace EnumForge

open Node (Like mapTokens)

/-! ### Cases -/

namespace Member

/-- The names listed in the case declaration, if the member is one. -/
def caseNames? (m : Member) : Option (List Token) :=
  m.decl.enumCase?.map fun d ↦ d.elements.map fun e ↦ e.name.bare

theorem caseNames?_mapTokens (m : Member) :
    (mapTokens Token.bare m).caseNames? = m.caseNames? := by
  obtain ⟨decl, semicolon⟩ := m
  cases decl with
  | enumCase d =>
    have helements : (mapTokens Token.bare d).elements = d.elements.map (mapTokens Token.bare) :=
      Node.mapTokens_list Token.bare d.elements
    have hcase : (mapTokens Token.bare (⟨.enumCase d, semicolon⟩ : Member)).caseNames? =
        some ((mapTokens Token.bare d).elements.map fun e ↦ e.name.bare) := rfl
    rw [hcase, helements, List.map_map]
    rfl
  | enum | nominal | extension | binding | raw => rfl

theorem filterMap_caseNames?_of_like {ms ms' : List Member} (h : Like ms ms') :
    ms'.filterMap caseNames? = ms.filterMap caseNames? := by
  have hbare (ms : List Member) :
      (ms.map (mapTokens Token.bare)).filterMap caseNames? = ms.filterMap caseNames? := by
    rw [List.filterMap_map]
    exact List.filterMap_congr fun m _ ↦ caseNames?_mapTokens m
  rw [← hbare ms', ← hbare ms, Node.like_list_iff.1 h]

theorem caseNames?_eq_none {m : Member} (h : m.decl.isEnumCase = false) : m.caseNames? = none := by
  obtain ⟨decl, semicolon⟩ := m
  cases decl with
  | enumCase d => simp [Decl.isEnumCase] at h
  | enum | nominal | extension | binding | raw => rfl

end Member

namespace MemberBlock

theorem cases_eq (b : MemberBlock) : b.cases =
    (b.members.filterMap Member.caseNames?).zipIdx.flatMap fun (names, i) ↦
      names.map fun name ↦ ⟨name, i⟩ := by
  have hnames : b.members.filterMap Member.caseNames? =
      b.caseDecls.map fun d ↦ d.elements.map fun e ↦ e.name.bare :=
    (List.map_filterMap ..).symm
  rw [hnames, cases, List.zipIdx_map, List.flatMap_map]
  simp [Function.comp_def]

theorem cases_of_like_members {b b' : MemberBlock} (h : Like b.members b'.members) :
    b'.cases = b.cases := by
  rw [cases_eq, cases_eq, Member.filterMap_caseNames?_of_like h]

/-- Members that are no cases, and trivia, do not matter for the cases. -/
theorem cases_of_like {b b' : MemberBlock} {kept added : List Member}
    (hkept : Like (b.members.filter (·.decl.isEnumCase)) kept)
    (hadded : ∀ m ∈ added, m.decl.isEnumCase = false) (hmembers : b'.members = kept ++ added) :
    b'.cases = b.cases := by
  have hfilter : (b.members.filter (·.decl.isEnumCase)).filterMap Member.caseNames? =
      b.members.filterMap Member.caseNames? := by
    rw [List.filterMap_filter]
    refine List.filterMap_congr fun m _ ↦ ?_
    split
    next => rfl
    next h => exact (Member.caseNames?_eq_none (by simpa using h)).symm
  have hnone : added.filterMap Member.caseNames? = [] :=
    List.filterMap_eq_nil_iff.2 fun m hm ↦ Member.caseNames?_eq_none (hadded m hm)
  rw [cases_eq, cases_eq, hmembers, List.filterMap_append, hnone, List.append_nil,
    Member.filterMap_caseNames?_of_like hkept, hfilter]

end MemberBlock

namespace ConformanceExtension

theorem leading_bindingMember (leading : Trivia) (b : BindingDecl) :
    Node.leading (bindingMember leading b) = leading := by
  have hne : Node.tokens b ≠ [] := by simp [Node.tokens]
  obtain ⟨t, ts, hts⟩ := List.exists_cons_of_ne_nil hne
  rw [Node.leading, Display.tokens_bindingMember, hts]
  rfl

end ConformanceExtension

namespace EnumReplacement

variable {conformance : String} {insertMissing : Bool} {a : Attribute} {old new : NominalDecl}

/-! ### The inheritance clause -/

/-- How an inheritance clause changes: not at all, or by the conformance as its last entry. -/
inductive ClauseChange (conformance : String) (insertMissing : Bool) :
    Option InheritanceClause → Option InheritanceClause → Prop where
  | listed {c : InheritanceClause} (hlisted : c.contains conformance = true) :
      ClauseChange conformance insertMissing (some c) (some c)
  | added {c : InheritanceClause} {types : List InheritedType} {entry : Token}
      (hlisted : c.contains conformance = false)
      (htypes : Like (c.types.map fun i ↦ { i with comma := some (i.comma.getD Token.comma) })
        types)
      (hentry : entry.bare = .plain .identifier conformance) :
      ClauseChange conformance insertMissing (some c)
        (some ⟨c.colon, types ++ [⟨.identifier entry, none⟩]⟩)
  | absent (hinsert : insertMissing = false) : ClauseChange conformance insertMissing none none
  | inserted {colon entry : Token} (hinsert : insertMissing = true)
      (hcolon : colon.bare = Token.colon) (hentry : entry.bare = .plain .identifier conformance) :
      ClauseChange conformance insertMissing none (some ⟨colon, [⟨.identifier entry, none⟩]⟩)

theorem like_withComma (i : InheritedType) :
    Like { i with comma := some (i.comma.getD Token.comma) } (withComma i) := by
  obtain ⟨type, comma⟩ := i
  cases comma with
  | some t => rfl
  | none =>
    have htype : Like type (Node.setTrailing .empty type) := type.hasShape.like_setTrailing _
    exact congrArg (InheritedType.mk · (some Token.comma)) htype

theorem Conforms.clauseChange {h h' : NominalHead}
    (hconforms : Conforms conformance insertMissing h h') :
    ClauseChange conformance insertMissing h.inheritance h'.inheritance := by
  cases hconforms with
  | listed hclause hlisted =>
    rw [hclause]
    exact .listed hlisted
  | added hclause hlisted hid =>
    rw [hclause]
    exact .added hlisted (Node.like_map fun i _ ↦ like_withComma i) rfl
  | absent hclause hinsert =>
    rw [hclause]
    exact .absent hinsert
  | inserted hclause hinsert hid =>
    rw [hclause]
    exact .inserted hinsert rfl rfl

/-! ### The members -/

theorem like_modifyLast (ms : List Member) : Like ms (modifyLast Node.trimTrailing ms) :=
  Node.like_modify (fun m ↦ (Member.hasShape m).like_trimTrailing) _ ms

theorem cases_of_rebuilt {b b' : MemberBlock} {indent : String} {display : Display.Members}
    (h : b'.members = rebuiltMembers b.members indent display) : b'.cases = b.cases := by
  refine MemberBlock.cases_of_like (like_modifyLast _) ?_ h
  intro m hm
  obtain ⟨b, -, rfl⟩ := List.mem_map.1 hm
  rfl

/-! ### The whole enum -/

/-- The number of tokens up to the end of the `i`-th attribute. -/
def attributeEnd (i : Nat) (d : NominalDecl) : Nat :=
  (Node.tokens (d.head.preamble.attributes.take (i + 1))).length

/-- What becomes of an enum when the `i`-th attribute is disabled, and `new` takes its place. -/
structure Keeps (conformance : String) (insertMissing : Bool) (i : Nat)
    (old new : NominalDecl) : Prop where
  attributes : Like
    (old.head.preamble.attributes.modify i fun b ↦ { b with atSign.text := "//@" })
    new.head.preamble.attributes
  modifiers : Like old.head.preamble.modifiers new.head.preamble.modifiers
  keyword : new.head.keyword.bare = old.head.keyword.bare
  name : new.head.name.bare = old.head.name.bare
  generics : Like old.head.generics new.head.generics
  whereClause : Like old.head.whereClause new.head.whereClause
  inheritance : ClauseChange conformance insertMissing old.head.inheritance new.head.inheritance
  leftBrace : new.block.leftBrace = old.block.leftBrace
  /-- The cases, and after them the two display members, each on a new line. -/
  members : ∃ kept display added,
    Like (old.block.members.filter (·.decl.isEnumCase)) kept ∧
      Display.membersOf old (memberIndent old) = .ok display ∧
      added = [display.typeDisplay, display.caseDisplay].map
        (ConformanceExtension.bindingMember (Trivia.newlinesIndent 2 (memberIndent old))) ∧
      (∀ m ∈ added, (Node.leading m).hasNewline = true) ∧
      new.block.members = kept ++ added
  cases : new.block.cases = old.block.cases
  /-- The token after the comment is the one after the attribute, on a new line. -/
  nextToken : ∃ t indent,
    (Node.tokens old)[attributeEnd i old]? = some t ∧
      (Node.tokens new)[attributeEnd i new]? = some (t.onOwnLine indent) ∧
      (t.onOwnLine indent).startsLine = true
  rightBrace : ∃ indent, new.block.rightBrace = old.block.rightBrace.onOwnLine indent ∧
    new.block.rightBrace.startsLine = true

section

variable {before after : List Attribute}

theorem like_attributes_disabledFront (d : NominalDecl) (before after : List Attribute) :
    Like (before ++ { a with atSign.text := "//@" } :: after)
      (disabledFront before after a d).1.attributes := by
  have hafter : Like after (moved a after d).1 := congrArg Prod.fst (like_moved a after d)
  have hattributes : (disabledFront before after a d).1.attributes =
      before ++ commentOut a :: (moved a after d).1 := by
    simp [disabledFront, frontOf]
  rw [hattributes, Node.like_list_iff, List.map_append, List.map_append, List.map_cons,
    List.map_cons, like_commentOut a, Node.like_list_iff.1 hafter]

/-- The token behind an attribute starts what follows the attribute up to the keyword. -/
theorem getElem?_attributeEnd {d : NominalDecl} {b : Attribute}
    (h : d.head.preamble.attributes = before ++ b :: after) :
    (Node.tokens d)[attributeEnd before.length d]? =
      (Node.tokens (after, d.head.preamble.modifiers, d.head.keyword)).head? := by
  have hend : attributeEnd before.length d = (Node.tokens (before ++ [b])).length := by
    rw [attributeEnd, h, List.append_cons, List.take_left' (by simp)]
  have hfront : Node.tokens d.front = Node.tokens (before ++ [b]) ++
      Node.tokens (after, d.head.preamble.modifiers, d.head.keyword) := by
    simp [NominalDecl.front, Node.tokens, h]
  have hne : Node.tokens (after, d.head.preamble.modifiers, d.head.keyword) ≠ [] := by
    simp [Node.tokens]
  obtain ⟨rest, hrest⟩ := d.exists_tokens_eq_front
  rw [hrest, hend, hfront, List.append_assoc, List.getElem?_append_right (Nat.le_refl _),
    Nat.sub_self, ← List.head?_eq_getElem?, List.head?_append_of_ne_nil _ hne]

theorem nextToken_disabledFront (hold : old.head.preamble.attributes = before ++ a :: after)
    (hnew : new.front = disabledFront before after a old) :
    ∃ t, (Node.tokens old)[attributeEnd before.length old]? = some t ∧
      (Node.tokens new)[attributeEnd before.length new]? =
        some (t.onOwnLine (Node.indentation a)) := by
  have hattributes : new.head.preamble.attributes =
      before ++ commentOut a :: (moved a after old).1 := by
    rw [List.append_cons]
    exact congrArg (fun p : Preamble × Token ↦ p.1.attributes) hnew
  have hmoved : ((moved a after old).1, new.head.preamble.modifiers, new.head.keyword) =
      moved a after old :=
    congrArg (fun p : Preamble × Token ↦ ((moved a after old).1, p.1.modifiers, p.2)) hnew
  rw [getElem?_attributeEnd hold, getElem?_attributeEnd hattributes, hmoved, moved,
    (hasShape_rest _).tokens_modifyToken]
  -- There is a token behind every attribute: the keyword, if no other.
  cases hnext : Node.tokens (after, old.head.preamble.modifiers, old.head.keyword) with
  | nil => simp [Node.tokens] at hnext
  | cons t ts => exact ⟨t, rfl, rfl⟩

end

theorem keeps_of_proposes (ha : a ∈ old.head.preamble.attributes)
    (h : Proposes conformance insertMissing a old new) :
    Keeps conformance insertMissing (old.head.preamble.attributes.idxOf a) old new := by
  obtain ⟨before, after, display, hsplit, hfirst, hidx, hhead, hdisplay, hblock⟩ :=
    steps_of_proposes ha h
  have hsame := hhead.sameHead
  have hfront : new.front = disabledFront before after a old :=
    Prod.ext hsame.preamble hsame.keyword
  have hlike := like_moved a after old
  have hmodify : old.head.preamble.attributes.modify before.length
      (fun b ↦ { b with atSign.text := "//@" }) =
        before ++ { a with atSign.text := "//@" } :: after := by
    rw [hsplit, List.modify_eq_take_cons_drop (by simp)]
    simp
  rw [hidx]
  refine ⟨?_, ?_, ?_, hsame.name, hsame.generics, ?_, hhead.clauseChange, ?_, ?_, ?_, ?_, ?_⟩
  · rw [hmodify, hsame.preamble]
    exact like_attributes_disabledFront old before after
  · rw [hsame.preamble]
    exact congrArg (fun p ↦ p.2.1) hlike
  · rw [hsame.keyword]
    exact (congrArg (fun p ↦ p.2.2) hlike).symm
  · rw [hsame.whereClause]
    exact .refl _
  · rw [hblock]
  · refine ⟨_, display, _, like_modifyLast _, hdisplay, rfl, ?_,
      congrArg MemberBlock.members hblock⟩
    intro m hm
    obtain ⟨b, -, rfl⟩ := List.mem_map.1 hm
    rw [ConformanceExtension.leading_bindingMember]
    exact Trivia.hasNewline_newlinesIndent 2 _
  · exact cases_of_rebuilt (congrArg MemberBlock.members hblock)
  · obtain ⟨t, hold, hnew⟩ := nextToken_disabledFront hsplit hfront
    exact ⟨t, _, hold, hnew, Token.startsLine_onOwnLine _ t⟩
  · refine ⟨Node.indentation old, ?_⟩
    rw [hblock]
    exact ⟨rfl, Token.startsLine_onOwnLine _ _⟩

/-- Two attributes on one line, a clause without the conformance, and a member to drop. -/
def crowdedEnum : String :=
  "@objc @AppEnumGenFixIt public enum A<T>: String, Codable where T: P \x7b\n" ++
    "  case a, b; var x = 1\n  case c // last\n\x7d"

theorem keeps_crowdedEnum : ∃ old a new, parseDecl crowdedEnum = .ok (.enum old) ∧
    a ∈ old.head.preamble.attributes ∧ Proposes "AppEnum" false a old new ∧
    Keeps "AppEnum" false (old.head.preamble.attributes.idxOf a) old new := by
  have hsome : (proposal? "AppEnum" false 1 crowdedEnum).isSome = true := by decide +kernel
  obtain ⟨⟨old, a, new⟩, hproposal⟩ := Option.isSome_iff_exists.1 hsome
  obtain ⟨hparse, ha, hproposes⟩ := of_proposal? hproposal
  have hmem := List.mem_of_getElem? ha
  exact ⟨old, a, new, hparse, hmem, hproposes, keeps_of_proposes hmem hproposes⟩

end EnumReplacement

end EnumForge
