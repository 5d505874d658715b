import EnumForge.Proofs.AppEnum.Proposal
import EnumForge.Proofs.AppEnum.Repeating
import EnumForge.Proofs.Token.Spreading

/-!
# The conformance of a replacement

A replacement lists its conformance under the name that the conformance has without back-ticks.  A
clause is searched for the conformance as it is written, though, and no type that was read from a
source has a name in back-ticks.  So a conformance in back-ticks is never found, and every further
replacement lists it once more.
-/

namespace EnumForge

open Node (Like mapTokens)

/-! ### Names without back-ticks -/

namespace Text

theorem notMem_of_splitAtFirst? {c : Char} {cs before after : List Char}
    (h : splitAtFirst? [c] cs = some (before, after)) : c ∉ before := by
  induction cs generalizing before after with
  | nil => simp [splitAtFirst?] at h
  | cons d cs ih =>
    rw [splitAtFirst?] at h
    split at h
    next =>
      simp only [Option.some.injEq, Prod.mk.injEq] at h
      simp [← h.1]
    next hstart =>
      obtain ⟨⟨b, a⟩, hs, he⟩ := Option.map_eq_some_iff.1 h
      simp only [Prod.mk.injEq] at he
      obtain ⟨rfl, rfl⟩ := he
      have hne : c ≠ d := by simpa [List.isPrefixOf] using hstart
      simp [hne, ih hs]

theorem unticked_eq_self_iff {text : String} :
    unticked text = text ↔ unticked? text.toList = none := by
  unfold unticked
  constructor
  · intro h
    cases hinner : unticked? text.toList with
    | none => rfl
    | some inner =>
      rw [hinner] at h
      have hlength := congrArg List.length (Token.eq_of_unticked? hinner)
      simp [← h] at hlength
      omega
  · intro h
    rw [h]

/-- An identifier that loses its back-ticks starts with one. -/
theorem head?_of_unticked_ne {text : String} (h : unticked text ≠ text) :
    text.toList.head? = some '\x60' := by
  obtain ⟨inner, hinner⟩ := Option.ne_none_iff_exists'.1 (mt unticked_eq_self_iff.2 h)
  rw [Token.eq_of_unticked? hinner]
  rfl

end Text

/-- The text after a first back-tick has no other than the closing one. -/
theorem Lexeme.Rule.exists_body {kind : TokenKind} {tail after : List Char}
    (h : Lexeme.Rule '\x60' kind tail after) : ∃ body, tail = body ++ ['\x60'] ∧ '\x60' ∉ body := by
  have hcut := Lexeme.cut_of_rule h
  rw [Lexeme.cut, if_neg (by decide), if_pos rfl] at hcut
  split at hcut
  next body rest hclose =>
    simp only [Except.ok.injEq, Prod.mk.injEq] at hcut
    obtain ⟨-, rfl, rfl⟩ := hcut
    obtain ⟨⟨inner, rest⟩, hsplit, hclose⟩ := Option.bind_eq_some_iff.1 hclose
    simp only [Option.ite_none_left_eq_some, Option.some.injEq, Prod.mk.injEq] at hclose
    exact ⟨inner, hclose.2.1.symm, Text.notMem_of_splitAtFirst? hsplit⟩
  next => simp at hcut

/-- The name of a token that was cut from a text does not start with a back-tick. -/
theorem Token.CutBefore.head?_name_ne {t : Token} {after : List Char} (h : t.CutBefore after) :
    t.name.toList.head? ≠ some '\x60' := by
  obtain ⟨c, tail, htext, hrule⟩ := h
  by_cases hc : c = '\x60'
  · subst hc
    obtain ⟨body, rfl, hbody⟩ := hrule.exists_body
    have hname : t.name = String.ofList body := by
      simp [name, Text.unticked, Text.unticked?, htext]
    rw [hname, String.toList_ofList]
    exact fun hhead ↦ hbody (List.mem_of_head? hhead)
  · have hname : t.name = t.text := by
      rw [name, Text.unticked_eq_self_iff, htext]
      simp [Text.unticked?, hc]
    rw [hname, htext]
    simpa using hc

/-! ### The names of a clause -/

namespace TypeRef

theorem mem_of_memberPath? {ts : List Token} {t : Token} (h : memberPath? ts = some t) :
    t ∈ ts := by
  fun_induction memberPath? ts with
  | case1 => simp at h
  | case2 u hkind => simp_all
  | case3 u hkind => simp at h
  | case4 u p ts hkind ih => exact List.mem_cons_of_mem _ (List.mem_cons_of_mem _ (ih h))
  | case5 => simp at h

theorem exists_mem_of_nominalName? {t : TypeRef} {name : String} (h : t.nominalName? = some name) :
    ∃ u ∈ t.tokens, u.name = name := by
  cases t with
  | identifier u => exact ⟨u, List.mem_singleton_self u, Option.some.inj h⟩
  | dictionary => simp [nominalName?] at h
  | raw ts =>
    obtain ⟨u, hu, hname⟩ := Option.map_eq_some_iff.1 h
    exact ⟨u, mem_of_memberPath? hu, hname⟩

theorem nominalName?_of_like {t t' : TypeRef} (h : Like t t') :
    t'.nominalName? = t.nominalName? := by
  rw [← nominalName?_mapTokens_bare t', ← h, nominalName?_mapTokens_bare]

end TypeRef

namespace InheritanceClause

/-- The names of the types that are listed, plain or qualified. -/
def names (c : InheritanceClause) : List String := c.types.filterMap (·.type.nominalName?)

theorem contains_iff {c : InheritanceClause} {name : String} :
    c.contains name = true ↔ name ∈ c.names := by
  simp [contains, names]

theorem names_mapTokens_bare (c : InheritanceClause) :
    (mapTokens Token.bare c).names = c.names := by
  have hmap : (mapTokens Token.bare c).types = c.types.map (mapTokens Token.bare) :=
    Node.mapTokens_list Token.bare c.types
  rw [names, hmap, List.filterMap_map]
  exact List.filterMap_congr fun i _ ↦ TypeRef.nominalName?_mapTokens_bare i.type

end InheritanceClause

namespace NominalHead

/-- The names in the inheritance clause, if there is one. -/
def inheritedNames (h : NominalHead) : List String := (h.inheritance.map (·.names)).getD []

theorem inheritedNames_of_like {h h' : NominalHead} (hlike : Like h.inheritance h'.inheritance) :
    h'.inheritedNames = h.inheritedNames := by
  have hbare (o : Option InheritanceClause) :
      (mapTokens Token.bare o).map (·.names) = o.map (·.names) := by
    cases o with
    | none => rfl
    | some c => exact congrArg some c.names_mapTokens_bare
  rw [inheritedNames, inheritedNames, ← hbare, ← hlike, hbare]

end NominalHead

/-- No name that is inherited in a source starts with a back-tick. -/
theorem NominalDecl.Parsed.head?_ne {d : NominalDecl} (h : d.Parsed) :
    ∀ name ∈ d.head.inheritedNames, name.toList.head? ≠ some '\x60' := by
  intro name hname
  cases hclause : d.head.inheritance with
  | none => simp [NominalHead.inheritedNames, hclause] at hname
  | some clause =>
    simp only [NominalHead.inheritedNames, hclause, Option.map_some, Option.getD_some,
      InheritanceClause.names, List.mem_filterMap] at hname
    obtain ⟨i, hi, hname⟩ := hname
    obtain ⟨t, ht, rfl⟩ := TypeRef.exists_mem_of_nominalName? hname
    have hmem : t ∈ Node.tokens d.head.inheritance := by
      rw [hclause]
      exact List.mem_cons_of_mem _ (List.mem_flatMap.2 ⟨i, hi, List.mem_append_left _ ht⟩)
    have htoken : t ∈ Node.tokens d := by
      rw [d.tokens_eq]
      exact List.mem_append_left _ (List.mem_append_right _ (.tail _ (.tail _
        (List.mem_append_left _ (List.mem_append_right _ hmem)))))
    obtain ⟨source, s, hs, hsource⟩ := h.exists_infix
    obtain ⟨after, hcut, -⟩ :=
      TokenStream.standsAlone_of_ofSource hs t (hsource.subset htoken)
    exact hcut.head?_name_ne

namespace EnumReplacement

variable {conformance : String} {insertMissing : Bool} {a : Attribute} {old new : NominalDecl}

theorem names_addConformance (c : InheritanceClause) (conformance : String) :
    (addConformance c (.plain .identifier conformance)).names =
      c.names ++ [Text.unticked conformance] := by
  have hold : (c.types.map withComma).filterMap (·.type.nominalName?) = c.names := by
    rw [List.filterMap_map]
    refine List.filterMap_congr fun i _ ↦ ?_
    exact TypeRef.nominalName?_of_like (congrArg InheritedType.type (like_withComma i))
  rw [InheritanceClause.names, addConformance, List.filterMap_append, hold]
  rfl

/-- What a conformance adds to the names of a clause that is there or asked for. -/
theorem Conforms.inheritedNames {h h' : NominalHead}
    (hclause : h.inheritance.isSome = true ∨ insertMissing = true)
    (hconforms : Conforms conformance insertMissing h h') :
    h'.inheritance.isSome = true ∧ h'.inheritedNames = h.inheritedNames ++
      if conformance ∈ h.inheritedNames then [] else [Text.unticked conformance] := by
  cases hconforms with
  | @listed clause hsome hlisted =>
    have hmem : conformance ∈ h.inheritedNames := by
      simpa [NominalHead.inheritedNames, hsome] using InheritanceClause.contains_iff.1 hlisted
    simp [hsome, hmem]
  | @added clause hsome hlisted hid =>
    have hnames : h.inheritedNames = clause.names := by simp [NominalHead.inheritedNames, hsome]
    have hmem : conformance ∉ clause.names := by
      rw [← InheritanceClause.contains_iff, hlisted]
      exact Bool.false_ne_true
    rw [hnames, if_neg hmem]
    exact ⟨rfl, names_addConformance clause conformance⟩
  | absent hnone hinsert => simp [hnone, hinsert] at hclause
  | inserted hnone hinsert hid =>
    have hnames : h.inheritedNames = [] := by simp [NominalHead.inheritedNames, hnone]
    rw [hnames, if_neg List.not_mem_nil]
    exact ⟨rfl, rfl⟩

theorem inheritedNames_of_proposes
    (hclause : old.head.inheritance.isSome = true ∨ insertMissing = true)
    (h : Proposes conformance insertMissing a old new) :
    new.head.inheritance.isSome = true ∧ new.head.inheritedNames = old.head.inheritedNames ++
      if conformance ∈ old.head.inheritedNames then [] else [Text.unticked conformance] := by
  have hhead := conforming_eq_ok.1 (replacement_eq_ok.1 (proposes_iff.1 h)).1
  have hnames : (disable a old).head.inheritedNames = old.head.inheritedNames :=
    NominalHead.inheritedNames_of_like (mapTokens_inheritance_disable a old).symm
  have hsome : (disable a old).head.inheritance.isSome = old.head.inheritance.isSome := by
    simpa using congrArg Option.isSome (map_contains_disable a old conformance)
  rw [← hsome] at hclause
  rw [← hnames]
  exact hhead.inheritedNames hclause

/-- The display members of a proposed enum are those of the enum as it was. -/
theorem membersOf_of_proposes (h : Proposes conformance insertMissing a old new)
    (indent : String) : Display.membersOf new indent = Display.membersOf old indent := by
  obtain ⟨hhead, hblock⟩ := replacement_eq_ok.1 (proposes_iff.1 h)
  obtain ⟨display, -, hblock⟩ := rebuild_eq_ok.1 hblock
  obtain ⟨attributes, hmap⟩ := exists_mapTokens_disable a old
  obtain ⟨hlikeHead, hlikeMembers⟩ := NominalDecl.like_parts hmap
  refine Display.membersOf_congr ?_ ?_ indent
  · rw [(conforming_eq_ok.1 hhead).sameHead.name]
    exact congrArg NominalHead.name hlikeHead
  · rw [cases_of_rebuilt (congrArg MemberBlock.members hblock)]
    exact (MemberBlock.cases_of_like_members hlikeMembers).symm

/-- A replacement can be built whenever the display members can. -/
theorem exists_proposes (hid : Text.isIdentifier conformance = true) {d : NominalDecl}
    {display : Display.Members} (h : Display.membersOf d (memberIndent d) = .ok display)
    (insertMissing : Bool) (a : Attribute) :
    ∃ new, Proposes conformance insertMissing a d new := by
  have hok := isOk_conforming conformance insertMissing (disable a d).head
  rw [hid, Bool.or_true] at hok
  cases hhead : conforming conformance insertMissing (disable a d).head with
  | error e => simp [hhead, Except.isOk, Except.toBool] at hok
  | ok head =>
    obtain ⟨block, hblock⟩ : ∃ block, rebuild d (disable a d).block = .ok block :=
      ⟨_, rebuild_eq_ok.2 ⟨display, h, rfl⟩⟩
    exact ⟨⟨head, block⟩, proposes_iff.2 (replacement_eq_ok.2 ⟨hhead, hblock⟩)⟩

/-- Another replacement of a proposed enum, and what it lists. -/
theorem exists_proposes_again (hid : Text.isIdentifier conformance = true)
    (hsome : new.head.inheritance.isSome = true)
    (h : Proposes conformance insertMissing a old new) (insertMissing' : Bool) (b : Attribute) :
    ∃ again, Proposes conformance insertMissing' b new again ∧
      again.head.inheritedNames = new.head.inheritedNames ++
        if conformance ∈ new.head.inheritedNames then [] else [Text.unticked conformance] := by
  obtain ⟨-, hblock⟩ := replacement_eq_ok.1 (proposes_iff.1 h)
  obtain ⟨display, hdisplay, -⟩ := rebuild_eq_ok.1 hblock
  obtain ⟨display', hdisplay', -⟩ := Display.exists_membersOf_indent hdisplay (memberIndent new)
  rw [← membersOf_of_proposes h] at hdisplay'
  obtain ⟨again, hagain⟩ := exists_proposes hid hdisplay' insertMissing' b
  exact ⟨again, hagain, (inheritedNames_of_proposes (.inl hsome) hagain).2⟩

/-! ### The conformance is found again -/

/-- The enum lists the conformance so that it is found: nothing is left to ask for, and another
replacement of the enum lists nothing more. -/
structure Declares (conformance : String) (d : NominalDecl) : Prop where
  listed : d.head.inheritance.any (·.contains conformance) = true
  requested : Expansion.requestedConformances (.enum d) conformance = []
  again (insertMissing : Bool) (a : Attribute) : ∃ new, Proposes conformance insertMissing a d new ∧
    new.head.inheritedNames = d.head.inheritedNames

theorem any_contains_iff {h : NominalHead} :
    h.inheritance.any (·.contains conformance) = true ↔ conformance ∈ h.inheritedNames := by
  unfold NominalHead.inheritedNames
  cases h.inheritance with
  | none => simp
  | some c => exact InheritanceClause.contains_iff

/-- A generator is asked for the name of the conformance, unless the enum lists the conformance as
it is written. -/
theorem identifierNames_requestedConformances (hid : Text.isIdentifier conformance = true)
    (d : NominalDecl) :
    (Expansion.requestedConformances (.enum d) conformance).filterMap TypeRef.identifierName? =
      if conformance ∈ d.head.inheritedNames then [] else [Text.unticked conformance] := by
  unfold Expansion.requestedConformances
  have hlisted : (Decl.enum d).inheritance?.any (·.contains conformance) = true ↔
      conformance ∈ d.head.inheritedNames := any_contains_iff
  simp only [hlisted, Token.identifier_eq_ok.2 ⟨hid, rfl⟩]
  split <;> rfl

theorem notMem_of_ticked (hparsed : old.Parsed) (h : Text.unticked conformance ≠ conformance) :
    conformance ∉ old.head.inheritedNames := fun hmem ↦
  hparsed.head?_ne conformance hmem (Text.head?_of_unticked_ne h)

/-- The conformance is listed as it is written only if it is written without back-ticks. -/
theorem mem_inheritedNames_iff (hparsed : old.Parsed)
    (hclause : old.head.inheritance.isSome = true ∨ insertMissing = true)
    (h : Proposes conformance insertMissing a old new) :
    conformance ∈ new.head.inheritedNames ↔ Text.unticked conformance = conformance := by
  rw [(inheritedNames_of_proposes hclause h).2, List.mem_append]
  constructor
  · intro hmem
    by_contra hticked
    simp [notMem_of_ticked hparsed hticked, Ne.symm hticked] at hmem
  · intro hplain
    by_cases hold : conformance ∈ old.head.inheritedNames <;> simp [hold, hplain]

theorem declares_iff (hid : Text.isIdentifier conformance = true)
    (hsome : new.head.inheritance.isSome = true)
    (h : Proposes conformance insertMissing a old new) :
    Declares conformance new ↔ conformance ∈ new.head.inheritedNames := by
  constructor
  · intro hdeclares
    exact any_contains_iff.1 hdeclares.listed
  · intro hmem
    have hany := any_contains_iff.2 hmem
    refine ⟨hany, if_pos hany, fun insertMissing' b ↦ ?_⟩
    obtain ⟨again, hagain, hnames⟩ := exists_proposes_again hid hsome h insertMissing' b
    rw [if_pos hmem, List.append_nil] at hnames
    exact ⟨again, hagain, hnames⟩

/-- A conformance that was not there is listed once.  It is found again if it is written without
back-ticks; in back-ticks every further replacement lists it once more. -/
theorem declares_of_proposes (hparsed : old.Parsed) (hid : Text.isIdentifier conformance = true)
    (hclause : old.head.inheritance.isSome = true ∨ insertMissing = true)
    (h : Proposes conformance insertMissing a old new) :
    (Text.unticked conformance ∉ old.head.inheritedNames →
      new.head.inheritedNames.count (Text.unticked conformance) = 1) ∧
    (Declares conformance new ↔ Text.unticked conformance = conformance) ∧
    (Text.unticked conformance ≠ conformance → ∀ insertMissing' b, ∃ again,
      Proposes conformance insertMissing' b new again ∧
        again.head.inheritedNames =
          new.head.inheritedNames ++ [Text.unticked conformance]) := by
  obtain ⟨hsome, hnames⟩ := inheritedNames_of_proposes hclause h
  have hlisted := mem_inheritedNames_iff hparsed hclause h
  refine ⟨fun hfresh ↦ ?_, (declares_iff hid hsome h).trans hlisted, ?_⟩
  · have hold : conformance ∉ old.head.inheritedNames := by
      by_cases hplain : Text.unticked conformance = conformance
      · exact hplain ▸ hfresh
      · exact notMem_of_ticked hparsed hplain
    rw [hnames, if_neg hold, List.count_append, List.count_eq_zero.2 hfresh,
      List.count_singleton_self]
  · intro hticked insertMissing' b
    have hagain := exists_proposes_again hid hsome h insertMissing' b
    rwa [if_neg (mt hlisted.1 hticked)] at hagain

/-- The clause lists a type in back-ticks and a qualified one. -/
def qualifiedEnum : String :=
  "@AppEnumGenFixIt enum A<T>: \x60String\x60, Kit.Other /* last */ \x7b case a \x7d"

theorem declares_qualifiedEnum : ∃ old a new, parseDecl qualifiedEnum = .ok (.enum old) ∧
    Proposes "AppEnum" false a old new ∧ new.head.inheritedNames = ["String", "Other", "AppEnum"] ∧
    Declares "AppEnum" new := by
  have hrun : ((proposal? "AppEnum" false 0 qualifiedEnum).any fun p ↦
      p.1.head.inheritance.isSome &&
        p.2.2.head.inheritedNames == ["String", "Other", "AppEnum"]) = true := by
    decide +kernel
  obtain ⟨⟨old, a, new⟩, hproposal, hclause⟩ := (Option.any_eq_true _ _).1 hrun
  simp only [Bool.and_eq_true, beq_iff_eq] at hclause
  obtain ⟨hparse, -, hproposes⟩ := of_proposal? hproposal
  have hdeclares := declares_of_proposes (.of_parseDecl hparse) (by decide +kernel)
    (.inl hclause.1) hproposes
  exact ⟨old, a, new, hparse, hproposes, hclause.2, hdeclares.2.1.2 (by decide +kernel)⟩

/-- An enum without the conformance. -/
def plainEnum : String := "@AppEnumGenFixIt\nenum A: String \x7b\n    case a\n\x7d"

theorem not_declares_plainEnum : Text.isIdentifier "\x60AppEnum\x60" = true ∧
    ∃ old a new, parseDecl plainEnum = .ok (.enum old) ∧ old.head.inheritance.isSome = true ∧
      Proposes "\x60AppEnum\x60" false a old new ∧ ¬Declares "\x60AppEnum\x60" new := by
  have hrun : ((proposal? "\x60AppEnum\x60" false 0 plainEnum).any fun p ↦
      p.1.head.inheritance.isSome &&
        !p.2.2.head.inheritance.any (·.contains "\x60AppEnum\x60")) = true := by
    decide +kernel
  obtain ⟨⟨old, a, new⟩, hproposal, hclause⟩ := (Option.any_eq_true _ _).1 hrun
  simp only [Bool.and_eq_true, Bool.not_eq_true'] at hclause
  obtain ⟨hparse, -, hproposes⟩ := of_proposal? hproposal
  refine ⟨by decide +kernel, old, a, new, hparse, hclause.1, hproposes, fun hdeclares ↦ ?_⟩
  rw [hdeclares.listed] at hclause
  exact Bool.noConfusion hclause.2

end EnumReplacement

end EnumForge
