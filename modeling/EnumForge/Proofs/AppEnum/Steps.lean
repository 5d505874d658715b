import EnumForge.Proofs.AppEnum.Building
import EnumForge.Proofs.AppEnum.Printing
import EnumForge.Proofs.Grammar.Conservation
import EnumForge.Proofs.Tree.Edit
import EnumForge.Proofs.Trivia.Indent

/-!
# The steps of a replacement

A replacement is proposed exactly when its three steps go through.  The attribute becomes a comment
in the front of the enum, up to its keyword; the conformance comes into the inheritance clause in
one of four ways; and the block is built anew from the cases and the display members.
-/

namespace EnumForge

open Node (Like HasShape modifyToken)

/-- The token on a line of its own: it moves to a new line unless it starts one. -/
def Token.onOwnLine (indent : String) (t : Token) : Token :=
  if t.startsLine then t else t.withLeading (Trivia.newlineIndent indent)

namespace Token

theorem startsLine_onOwnLine (indent : String) (t : Token) :
    (t.onOwnLine indent).startsLine = true := by
  unfold onOwnLine
  split
  next hline => exact hline
  next => exact Trivia.hasNewline_newlinesIndent 1 indent

theorem onOwnLine_of_startsLine (indent : String) {t : Token} (h : t.startsLine = true) :
    t.onOwnLine indent = t := if_pos h

theorem bare_onOwnLine (indent : String) (t : Token) : (t.onOwnLine indent).bare = t.bare := by
  unfold onOwnLine
  split <;> rfl

end Token

namespace EnumReplacement

/-- The generator proposes `new` in the place of the enum `old`. -/
def Proposes (conformance : String) (insertMissing : Bool) (a : Attribute)
    (old new : NominalDecl) : Prop :=
  ∀ types, (generator conformance insertMissing).run a (.enum old) types =
    ⟨.ok [], [(Diagnostic.about a Catalog.replaceEnum).withFixIt
      (Catalog.fixIt (.enum old) (.enum new))]⟩

variable {conformance : String} {insertMissing : Bool} {a : Attribute} {old new : NominalDecl}

theorem proposes_iff : Proposes conformance insertMissing a old new ↔
    replacement conformance insertMissing a old = .ok new := by
  unfold Proposes
  simp only [run_generator, onEnum, Decl.enum?]
  cases replacement conformance insertMissing a old with
  | error e => simp
  | ok r => simp [Diagnostic.withFixIt, Diagnostic.about, Catalog.fixIt]

theorem replacement_eq_ok : replacement conformance insertMissing a old = .ok new ↔
    conforming conformance insertMissing (disable a old).head = .ok new.head ∧
      rebuild old (disable a old).block = .ok new.block := by
  obtain ⟨head, block⟩ := new
  rw [replacement, bind_eq_ok]
  constructor
  · rintro ⟨head', hhead, h⟩
    obtain ⟨block', hblock, h⟩ := bind_eq_ok.1 h
    simp only [pure, Except.pure, Except.ok.injEq, NominalDecl.mk.injEq] at h
    obtain ⟨rfl, rfl⟩ := h
    exact ⟨hhead, hblock⟩
  · rintro ⟨hhead, hblock⟩
    exact ⟨head, hhead, bind_eq_ok.2 ⟨block, hblock, rfl⟩⟩

/-- The enum that `source` spells, its `i`-th attribute and what that attribute proposes. -/
def proposal? (conformance : String) (insertMissing : Bool) (i : Nat) (source : String) :
    Option (NominalDecl × Attribute × NominalDecl) := do
  let old ← parseEnum? source
  let a ← old.head.preamble.attributes[i]?
  let new ← (replacement conformance insertMissing a old).toOption
  return (old, a, new)

theorem of_proposal? {i : Nat} {source : String}
    (h : proposal? conformance insertMissing i source = some (old, a, new)) :
    parseDecl source = .ok (.enum old) ∧ old.head.preamble.attributes[i]? = some a ∧
      Proposes conformance insertMissing a old new := by
  obtain ⟨old', hold, h⟩ := Option.bind_eq_some_iff.1 h
  obtain ⟨a', ha, h⟩ := Option.bind_eq_some_iff.1 h
  obtain ⟨new', hnew, h⟩ := Option.bind_eq_some_iff.1 h
  simp only [pure, Option.some.injEq, Prod.mk.injEq] at h
  obtain ⟨rfl, rfl, rfl⟩ := h
  refine ⟨parseEnum?_eq_some.1 hold, ha, proposes_iff.2 ?_⟩
  cases hreplacement : replacement conformance insertMissing a' old' with
  | error e => simp [hreplacement, Except.toOption] at hnew
  | ok r => simpa [hreplacement, Except.toOption] using hnew

/-! ### The attribute -/

theorem position?_of_append {attributes before after : List Attribute}
    (h : attributes = before ++ a :: after) (hfirst : a ∉ before) :
    position? a attributes = some before.length := by
  have hfind : attributes.findIdx? (· == a) = some before.length := by
    subst h
    refine List.findIdx?_eq_some_iff_getElem.2 ⟨by simp, by simp, ?_⟩
    intro j hj heq
    rw [List.getElem_append_left hj, beq_iff_eq] at heq
    exact hfirst (heq ▸ List.getElem_mem hj)
  rw [position?, hfind, Option.some_or]

/-- The first attribute equal to `a`, with those around it. -/
theorem exists_split {attributes : List Attribute} (ha : a ∈ attributes) :
    ∃ before after, attributes = before ++ a :: after ∧ a ∉ before ∧
      attributes.idxOf a = before.length := by
  obtain ⟨before, after, rfl, hfirst⟩ := List.eq_append_cons_of_mem ha
  refine ⟨before, after, rfl, hfirst, ?_⟩
  rw [List.idxOf_append_of_notMem hfirst, List.idxOf_cons_self, Nat.add_zero]

theorem like_commentOut (a : Attribute) : Like { a with atSign.text := "//@" } (commentOut a) :=
  (Attribute.hasShape _).like_trimTrailing

/-- The front of a group from its attributes in two parts, modifiers and keyword. -/
def frontOf (p : List Attribute × List Attribute × List Modifier × Token) : Preamble × Token :=
  (⟨p.1 ++ p.2.1, p.2.2.1⟩, p.2.2.2)

/-- What stands behind the comment, its first token on a new line. -/
def moved (a : Attribute) (after : List Attribute) (d : NominalDecl) :
    List Attribute × List Modifier × Token :=
  modifyToken 0 (Token.onOwnLine (Node.indentation a))
    (after, d.head.preamble.modifiers, d.head.keyword)

/-- The front of the enum with the attribute as a comment. -/
def disabledFront (before after : List Attribute) (a : Attribute) (d : NominalDecl) :
    Preamble × Token :=
  frontOf (before ++ [commentOut a], moved a after d)

section

variable {d : NominalDecl} {before after : List Attribute}

theorem tokens_frontOf (p : List Attribute × List Attribute × List Modifier × Token) :
    Node.tokens (frontOf p) = Node.tokens p := by
  simp [frontOf, Node.tokens]

theorem hasShape_rest (p : List Attribute × List Modifier × Token) : HasShape p :=
  .pair (.list fun b _ ↦ b.hasShape) (.pair (.list fun m _ ↦ m.hasShape) (.token _))

/-- An edit right behind the first part of the attributes. -/
theorem modifyToken_frontOf (shown : List Attribute)
    (rest : List Attribute × List Modifier × Token) (f : Token → Token) :
    modifyToken (Node.tokens shown).length f (frontOf (shown, rest)) =
      frontOf (shown, modifyToken 0 f rest) := by
  rw [Node.modifyToken_image frontOf (tokens_frontOf _)
      (fun f p ↦ by simp [frontOf, Node.mapTokensM, List.mapM_append]),
    Node.modifyToken_pair_right (.list fun b _ ↦ b.hasShape)]

theorem tokens_moved (a : Attribute) (after : List Attribute) (d : NominalDecl) :
    Node.tokens (moved a after d) =
      (Node.tokens after ++ (Node.tokens d.head.preamble.modifiers ++ [d.head.keyword])).modify 0
        (Token.onOwnLine (Node.indentation a)) :=
  (hasShape_rest _).tokens_modifyToken 0 _

theorem like_moved (a : Attribute) (after : List Attribute) (d : NominalDecl) :
    Like (after, d.head.preamble.modifiers, d.head.keyword) (moved a after d) :=
  ((hasShape_rest _).mapTokens_modifyToken 0 (Token.bare_onOwnLine _)).symm

/-- Disabling the attribute changes the front of the enum only. -/
theorem disable_eq (h : d.head.preamble.attributes = before ++ a :: after) (hfirst : a ∉ before) :
    disable a d = d.withFront (disabledFront before after a d) := by
  have hmodify : d.head.preamble.attributes.modify before.length commentOut =
      before ++ [commentOut a] ++ after := by
    rw [h, List.modify_eq_take_cons_drop (by simp)]
    simp
  have htake : (before ++ [commentOut a] ++ after).take (before.length + 1) =
      before ++ [commentOut a] :=
    List.take_left' (by simp)
  have hindent : ((d.head.preamble.attributes[before.length]?).map Node.indentation).getD "" =
      Node.indentation a := by
    simp [h]
  rw [disable, position?_of_append h hfirst]
  dsimp only
  rw [hmodify, htake, hindent]
  obtain ⟨head, block⟩ := d
  let commented : NominalDecl :=
    ⟨{ head with preamble.attributes := before ++ [commentOut a] ++ after }, block⟩
  have hfront : commented.front =
      frontOf (before ++ [commentOut a], after, head.preamble.modifiers, head.keyword) := rfl
  have hlt : (Node.tokens (before ++ [commentOut a])).length <
      (Node.tokens commented.front).length := by
    rw [hfront, tokens_frontOf]
    simp [Node.tokens]
    omega
  have hedit := commented.modifyToken_of_lt_front hlt (Token.onOwnLine (Node.indentation a))
  rw [hfront, modifyToken_frontOf] at hedit
  exact hedit

end

/-! ### The inheritance clause -/

/-- How the conformance comes into the head of an enum. -/
inductive Conforms (conformance : String) (insertMissing : Bool) (h : NominalHead) :
    NominalHead → Prop where
  | listed {clause : InheritanceClause} (hclause : h.inheritance = some clause)
      (hlisted : clause.contains conformance = true) : Conforms conformance insertMissing h h
  | added {clause : InheritanceClause} (hclause : h.inheritance = some clause)
      (hlisted : clause.contains conformance = false) (hid : Text.isIdentifier conformance = true) :
      Conforms conformance insertMissing h
        { h with inheritance := some (addConformance clause (.plain .identifier conformance)) }
  | absent (hclause : h.inheritance = none) (hinsert : insertMissing = false) :
      Conforms conformance insertMissing h h
  | inserted (hclause : h.inheritance = none) (hinsert : insertMissing = true)
      (hid : Text.isIdentifier conformance = true) :
      Conforms conformance insertMissing h
        { h.modifyNameEnd (·.withTrailing .empty) with
          inheritance := some (ConformanceExtension.soleConformance
            (.plain .identifier conformance)) }

theorem conforming_eq_ok {h h' : NominalHead} :
    conforming conformance insertMissing h = .ok h' ↔ Conforms conformance insertMissing h h' := by
  constructor
  · intro heq
    unfold conforming at heq
    split at heq
    next clause hclause =>
      split at heq
      next hlisted =>
        simp only [Except.ok.injEq] at heq
        exact heq ▸ .listed hclause hlisted
      next hlisted =>
        obtain ⟨token, htoken, heq⟩ := bind_eq_ok.1 heq
        obtain ⟨hid, rfl⟩ := Token.identifier_eq_ok.1 htoken
        simp only [pure, Except.pure, Except.ok.injEq] at heq
        exact heq ▸ .added hclause (by simpa using hlisted) hid
    next hclause =>
      split at heq
      next hinsert =>
        obtain ⟨token, htoken, heq⟩ := bind_eq_ok.1 heq
        obtain ⟨hid, rfl⟩ := Token.identifier_eq_ok.1 htoken
        simp only [pure, Except.pure, Except.ok.injEq] at heq
        exact heq ▸ .inserted hclause hinsert hid
      next hinsert =>
        simp only [Except.ok.injEq] at heq
        exact heq ▸ .absent hclause (by simpa using hinsert)
  · intro hconforms
    cases hconforms with
    | listed hclause hlisted => simp [conforming, hclause, hlisted]
    | added hclause hlisted hid =>
      simp only [conforming, hclause, hlisted]
      exact bind_eq_ok.2 ⟨_, Token.identifier_eq_ok.2 ⟨hid, rfl⟩, rfl⟩
    | absent hclause hinsert => simp [conforming, hclause, hinsert]
    | inserted hclause hinsert hid =>
      simp only [conforming, hclause, hinsert]
      exact bind_eq_ok.2 ⟨_, Token.identifier_eq_ok.2 ⟨hid, rfl⟩, rfl⟩

/-- What a conformance leaves of the head. -/
structure SameHead (h h' : NominalHead) : Prop where
  preamble : h'.preamble = h.preamble
  keyword : h'.keyword = h.keyword
  name : h'.name.bare = h.name.bare
  generics : Like h.generics h'.generics
  whereClause : h'.whereClause = h.whereClause

theorem tokens_modifyNameEnd (h : NominalHead) (f : Token → Token) : ∃ ts,
    h.name :: Node.tokens h.generics = ts ++ [h.nameEnd] ∧
      (h.modifyNameEnd f).name :: Node.tokens (h.modifyNameEnd f).generics =
        ts ++ [f h.nameEnd] := by
  have htokens (g : List Token) : Node.tokens (some g) = g := by simp [Node.tokens]
  obtain ⟨preamble, keyword, name, generics, inheritance, whereClause⟩ := h
  rcases generics with - | - | ⟨t, ts⟩
  · exact ⟨[], rfl, rfl⟩
  · exact ⟨[], rfl, rfl⟩
  · obtain ⟨init, z, hlast⟩ := (List.eq_nil_or_concat' (t :: ts)).resolve_left (by simp)
    have hlength : ts.length = init.length := by simpa using congrArg List.length hlast
    have hmodify : (t :: ts).modify ts.length f = init ++ [f z] := by
      rw [hlast, hlength, Node.modify_append_right]
      rfl
    refine ⟨name :: init, ?_, ?_⟩
    · simp [NominalHead.nameEnd, htokens, hlast]
    · dsimp only [NominalHead.modifyNameEnd]
      rw [hmodify, htokens]
      simp [NominalHead.nameEnd, hlast]

theorem sameHead_modifyNameEnd (h : NominalHead) (trivia : Trivia)
    (clause : Option InheritanceClause) :
    SameHead h { h.modifyNameEnd (·.withTrailing trivia) with inheritance := clause } := by
  unfold NominalHead.modifyNameEnd
  split
  next t ts hgenerics =>
    refine ⟨rfl, rfl, rfl, ?_, rfl⟩
    rw [hgenerics]
    refine .some (Node.like_tokens ?_)
    refine List.ext_getElem? fun j ↦ ?_
    simp only [List.getElem?_map, List.getElem?_modify]
    cases (t :: ts)[j]? with
    | none => rfl
    | some u =>
      simp only [Option.map_eq_map, Option.map_some]
      split <;> rfl
  next => exact ⟨rfl, rfl, rfl, .refl _, rfl⟩

theorem Conforms.sameHead {h h' : NominalHead}
    (hconforms : Conforms conformance insertMissing h h') : SameHead h h' := by
  cases hconforms with
  | listed | absent | added => exact ⟨rfl, rfl, rfl, .refl _, rfl⟩
  | inserted => exact sameHead_modifyNameEnd h _ _

/-! ### The members -/

/-- The members of a replacement: the cases, and the display members on lines of their own. -/
def rebuiltMembers (members : List Member) (indent : String) (display : Display.Members) :
    List Member :=
  modifyLast Node.trimTrailing (members.filter (·.decl.isEnumCase)) ++
    [display.typeDisplay, display.caseDisplay].map
      (ConformanceExtension.bindingMember (Trivia.newlinesIndent 2 indent))

theorem rebuild_eq_ok {d : NominalDecl} {block block' : MemberBlock} :
    rebuild d block = .ok block' ↔ ∃ display,
      Display.membersOf d (memberIndent d) = .ok display ∧
        block' = ⟨block.leftBrace, rebuiltMembers block.members (memberIndent d) display,
          block.rightBrace.onOwnLine (Node.indentation d)⟩ := by
  rw [rebuild, bind_eq_ok]
  simp only [pure, Except.pure, Except.ok.injEq]
  constructor
  · rintro ⟨display, hdisplay, rfl⟩
    exact ⟨display, hdisplay, rfl⟩
  · rintro ⟨display, hdisplay, rfl⟩
    exact ⟨display, hdisplay, rfl⟩

/-! ### All steps together -/

/-- The three steps that a proposed enum is made by. -/
theorem steps_of_proposes (ha : a ∈ old.head.preamble.attributes)
    (h : Proposes conformance insertMissing a old new) :
    ∃ before after display,
      old.head.preamble.attributes = before ++ a :: after ∧ a ∉ before ∧
      old.head.preamble.attributes.idxOf a = before.length ∧
      Conforms conformance insertMissing
        (old.withFront (disabledFront before after a old)).head new.head ∧
      Display.membersOf old (memberIndent old) = .ok display ∧
      new.block = ⟨old.block.leftBrace,
        rebuiltMembers old.block.members (memberIndent old) display,
        old.block.rightBrace.onOwnLine (Node.indentation old)⟩ := by
  obtain ⟨before, after, hsplit, hfirst, hidx⟩ := exists_split ha
  obtain ⟨hhead, hblock⟩ := replacement_eq_ok.1 (proposes_iff.1 h)
  rw [disable_eq hsplit hfirst] at hhead hblock
  obtain ⟨display, hdisplay, hblock⟩ := rebuild_eq_ok.1 hblock
  exact ⟨before, after, display, hsplit, hfirst, hidx, conforming_eq_ok.1 hhead, hdisplay, hblock⟩

end EnumReplacement

end EnumForge
