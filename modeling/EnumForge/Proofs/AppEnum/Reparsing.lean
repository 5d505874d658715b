import EnumForge.Proofs.AppEnum.Printing
import EnumForge.Proofs.Grammar.Plain
import EnumForge.Proofs.Tree.Edit

/-!
# Generated code is parsed to itself

The text of a display member, and of an extension that holds both, is parsed to the declaration it
was printed from, all trivia included.  The tokens are read back one by one, and the reader rebuilds
the shapes that they were put together in.
-/

namespace EnumForge

open Node (Like)
open Token (Made Ready)
open Grammar (ItemsRead SameSight)

/-! ### The text of a declaration -/

/-- The end of a text that nothing stands before. -/
def Token.endOfText : Token := .plain .endOfFile ""

theorem Token.ready_endOfText : Ready [endOfText] := by
  refine ⟨⟨rfl, rfl, rfl⟩, ⟨[], rfl, .stop rfl⟩, ?_⟩
  simp [endOfText, plain]

/-- A made token at the end of a text. -/
theorem Token.Made.last {a : Token} (h : a.Made) (htrailing : a.trailing = .empty) :
    Ready [a, endOfText] := by
  obtain ⟨ps, hps, hgap, hhead⟩ := h.leading
  refine ⟨⟨?_, ⟨[], htrailing, .stop rfl⟩, ⟨[], rfl, .stop rfl⟩, rfl, rfl, rfl⟩,
    ⟨ps, hps, hgap _ (h.stops _)⟩, ?_⟩
  · have hnil : a.trailing.text.toList ++ listChars [endOfText] = [] := by
      simp [htrailing, endOfText, plain]
    rw [hnil]
    exact h.cut
  · rw [hps, Trivia.toList_text_ofPieces]
    exact hhead

theorem Grammar.SameSight.of_map_detached {ts us : List Token}
    (h : us.map Token.detached = ts.map Token.detached) : SameSight ts us := by
  induction ts generalizing us with
  | nil =>
    obtain rfl : us = [] := by simpa using h
    exact .edge
  | cons t ts ih =>
    obtain ⟨u, us', rfl, hu, hus⟩ := List.map_eq_cons_iff.1 h
    obtain ⟨hkind, htext, hleading, htrailing⟩ : u.kind = t.kind ∧ u.text = t.text ∧
        u.leading = t.leading ∧ u.trailing = t.trailing := by
      simpa [Token.detached] using hu
    refine .cons ⟨hkind, htext, ?_⟩ (.inl (by rw [htrailing])) (ih hus)
    rw [Token.startsLine, Token.startsLine, hleading]

/-- Nodes that are alike and have the same tokens but for places are the same without places. -/
theorem Decl.detach_eq_of_like {d d' : Decl} (hlike : Like d d')
    (htokens : (Node.tokens d').map Token.detached = Node.tokens d) : Node.detach d' = d := by
  refine (Decl.hasShape _).ext (Decl.hasShape _) (g := Token.bare) ?_ ?_
  · exact d'.hasShape.like_detach.trans hlike.symm
  · rw [Node.detach, d'.hasShape.tokens_mapTokens, htokens]

/-- The text of tokens that keep apart is parsed to what is read from tokens that look the same. -/
theorem parseSource_of_spelled {d : Decl} {t : Token} {ts us : List Token}
    (hspelled : Token.Spelled (t :: (ts ++ [Token.endOfText])))
    (hstart : TokenStream.StartsFile t.leading (Token.bodyChars (t :: (ts ++ [Token.endOfText]))))
    (hsight : SameSight us (t :: ts)) (hread : ItemsRead us [⟨d, none⟩] []) :
    ∃ d' endOfFile, parseSource (String.ofList (Token.listChars (t :: ts))) =
        .ok ⟨[⟨d', none⟩], endOfFile⟩ ∧ Like d d' ∧
      (Node.tokens d').map Token.detached = (t :: ts).map Token.detached ∧
      endOfFile.detached = Token.endOfText := by
  obtain ⟨s, hs, hdetached⟩ := TokenStream.ofSource_of_spelled hspelled hstart
  have hchars : Token.listChars (t :: (ts ++ [Token.endOfText])) = Token.listChars (t :: ts) := by
    rw [← List.cons_append, Token.listChars_append]
    simp [Token.endOfText, Token.plain]
  rw [hchars] at hs
  rw [TokenStream.toList, ← List.cons_append, List.map_append, List.map_append] at hdetached
  obtain ⟨hmap, hend⟩ := List.append_inj' hdetached rfl
  -- From `us` to the given tokens, and on to those with places: the reader sees no difference.
  obtain ⟨ms₁, last₁, hread₁, hlike₁, hlast₁⟩ := Grammar.alike_itemsRead hsight hread
  obtain ⟨ms, last, hread', hlike, hlast⟩ :=
    Grammar.alike_itemsRead (.of_map_detached hmap) hread₁
  obtain rfl : last₁ = [] := (hlast₁.toEdge .nil).nil_iff.1 rfl
  obtain rfl : last = [] := (hlast.toEdge .nil).nil_iff.1 rfl
  have hparse : parseSource (String.ofList (Token.listChars (t :: ts))) =
      .ok ⟨ms, s.endOfFile⟩ := parseSource_eq_ok.2 ⟨s, hs, hread', rfl⟩
  have hlike := Node.like_list_iff.1 (hlike₁.trans hlike)
  obtain ⟨⟨d', semicolon⟩, rfl⟩ : ∃ m, ms = [m] := by
    have hlen := congrArg List.length hlike
    exact List.length_eq_one_iff.1 (by simpa using hlen.symm)
  have hmember : Like (Member.mk d none) ⟨d', semicolon⟩ := by simpa [Like] using hlike
  obtain rfl : semicolon = none := by
    have hlike : Like none semicolon := congrArg Member.semicolon hmember
    simpa using Grammar.isSome_of_like hlike
  have hitems : Node.tokens d' = s.tokens := by
    rw [← hread'.tokens_append]
    simp [Member.listTokens, Member.tokens, Node.tokens]
  refine ⟨d', s.endOfFile, hparse, congrArg Member.decl hmember, ?_, ?_⟩
  · rw [hitems, hmap]
  · exact List.head_eq_of_cons_eq hend

theorem parseDecl_of_spelled {d : Decl} {t : Token} {ts us : List Token}
    (hspelled : Token.Spelled (t :: (ts ++ [Token.endOfText])))
    (hstart : TokenStream.StartsFile t.leading (Token.bodyChars (t :: (ts ++ [Token.endOfText]))))
    (hsight : SameSight us (t :: ts)) (hread : ItemsRead us [⟨d, none⟩] []) :
    ∃ d', parseDecl (String.ofList (Token.listChars (t :: ts))) = .ok d' ∧ Like d d' ∧
      (Node.tokens d').map Token.detached = (t :: ts).map Token.detached := by
  obtain ⟨d', endOfFile, hparse, hlike, hmap, -⟩ :=
    parseSource_of_spelled hspelled hstart hsight hread
  exact ⟨d', parseDecl_eq_ok.2 ⟨_, _, hparse, rfl, rfl⟩, hlike, hmap⟩

/-- A declaration without places, whose tokens keep apart and are read as that declaration, is what
its text is parsed to. -/
theorem parseSource_source {d : Decl} {t : Token} {ts : List Token}
    (htokens : Node.tokens d = t :: ts) (hsoft : t.StartsSoft)
    (hready : Ready (Node.tokens d ++ [Token.endOfText]))
    (hplaces : ∀ t ∈ Node.tokens d, t.span = none)
    (hread : ItemsRead (Node.tokens d) [⟨d, none⟩] []) :
    ∃ d' endOfFile, parseSource (Node.source d) = .ok ⟨[⟨d', none⟩], endOfFile⟩ ∧ Like d d' ∧
      Node.detach d' = d ∧ endOfFile.detached = Token.endOfText := by
  rw [htokens] at hready hread hplaces
  obtain ⟨d', endOfFile, hparse, hlike, hmap, hend⟩ :=
    parseSource_of_spelled hready.1 (hready.startsFile hsoft) (.of_map_detached rfl) hread
  have hsource : String.ofList (Token.listChars (t :: ts)) = Node.source d := by
    rw [← String.toList_inj, String.toList_ofList, Node.toList_source, htokens]
  rw [hsource] at hparse
  have hself : ∀ t' ∈ t :: ts, t'.detached = id t' := by
    rintro ⟨kind, text, leading, trailing, span⟩ ht
    obtain rfl : span = none := hplaces _ ht
    rfl
  refine ⟨d', endOfFile, hparse, hlike, Decl.detach_eq_of_like hlike ?_, hend⟩
  rw [hmap, List.map_congr_left hself, List.map_id, htokens]

theorem parseDecl_source {d : Decl} {t : Token} {ts : List Token}
    (htokens : Node.tokens d = t :: ts) (hsoft : t.StartsSoft)
    (hready : Ready (Node.tokens d ++ [Token.endOfText]))
    (hplaces : ∀ t ∈ Node.tokens d, t.span = none)
    (hread : ItemsRead (Node.tokens d) [⟨d, none⟩] []) :
    ∃ d', parseDecl (Node.source d) = .ok d' ∧ Node.detach d' = d := by
  obtain ⟨d', endOfFile, hparse, -, hdetach, -⟩ :=
    parseSource_source htokens hsoft hready hplaces hread
  exact ⟨d', parseDecl_eq_ok.2 ⟨_, _, hparse, rfl, rfl⟩, hdetach⟩

/-- A declaration that ends with its line, without a semicolon. -/
theorem Grammar.ItemsRead.leaf_of_endsDecl {ts rest last : List Token} {d : Decl}
    {ms : List Member} (hstart : Grammar.atBlockEnd ts = false)
    (hopen : opening ts = .ok (.leaf d, rest)) (hend : EndsDecl rest)
    (hrest : ItemsRead rest ms last) : ItemsRead ts (⟨d, none⟩ :: ms) last := by
  have hsemicolon : takeKind .semicolon rest = (none, rest) := by
    cases rest with
    | nil => rfl
    | cons t ts =>
      obtain ⟨-, hkind | hkind⟩ := hend t rfl <;> rw [takeKind, if_neg (by simp [hkind])]
  have hwith : withSemicolon d rest = (⟨d, none⟩, rest) := by
    rw [withSemicolon, hsemicolon]
  have hread : ItemsRead ts ((withSemicolon d rest).1 :: ms) last :=
    .leaf hstart hopen (by rwa [hwith])
  rwa [hwith] at hread

/-! ### Display members -/

namespace Display

theorem kind_separator (e next : CaseEntry) :
    (separator e next).kind = .comma ∧ (separator e next).span = none := by
  unfold separator
  split <;> exact ⟨rfl, rfl⟩

/-- An entry of a mapping by its tokens. -/
theorem tokens_element {indent : String} {startsLine : Bool} {e : CaseEntry}
    {next : Option CaseEntry} {d : DictionaryElement}
    (h : element indent startsLine e next = .ok d) :
    ∃ period : Token, (period.kind = .period ∧ period.span = none) ∧
      d = ⟨.implicitMember period (.plain .identifier e.name.text), Token.colon.spaced,
        .string (Token.stringLiteral e.label), next.map (separator e)⟩ := by
  obtain ⟨-, rfl⟩ := element_eq_ok.1 h
  refine ⟨_, ?_, rfl⟩
  split <;> exact ⟨rfl, rfl⟩

/-- The entries of a mapping are told apart again. -/
theorem elementsOfTokens_elements {indent : String} {previous : Option CaseEntry}
    {es : List CaseEntry} {ds : List DictionaryElement}
    (h : elements indent previous es = .ok ds) :
    Grammar.elementsOfTokens (DictionaryElement.listTokens ds) = some ds := by
  induction es generalizing previous ds with
  | nil =>
    simp only [elements, pure, Except.pure, Except.ok.injEq] at h
    subst h
    rw [DictionaryElement.listTokens, Grammar.elementsOfTokens]
  | cons e es ih =>
    obtain ⟨d, rest, hd, hrest, rfl⟩ := elements_cons_eq_ok.1 h
    obtain ⟨period, ⟨hperiod, -⟩, rfl⟩ := tokens_element hd
    have hcomma : ∀ c ∈ es.head?.map (separator e), c.kind = .comma := by
      intro c hc
      obtain ⟨next, -, rfl⟩ := Option.map_eq_some_iff.1 (Option.mem_def.1 hc)
      exact (kind_separator e next).1
    have hlast : es.head?.map (separator e) = none → DictionaryElement.listTokens rest = [] := by
      intro hnone
      cases es with
      | nil =>
        simp only [elements, pure, Except.pure, Except.ok.injEq] at hrest
        rw [← hrest]
        rfl
      | cons next es => simp at hnone
    have hname : (Token.plain .identifier e.name.text).kind = .identifier := rfl
    have hcolon : Token.colon.spaced.kind = .colon := rfl
    have hlabel : (Token.stringLiteral e.label).kind = .stringLiteral := rfl
    have hread := Grammar.elementsOfTokens_entry hperiod hname hcolon hlabel hcomma hlast (ih hrest)
    simpa [DictionaryElement.listTokens, DictionaryElement.tokens, Expr.tokens] using hread

/-- The tokens between the brackets of a mapping open and close nothing, and have no place. -/
theorem flat_of_elements {indent : String} {previous : Option CaseEntry} {es : List CaseEntry}
    {ds : List DictionaryElement} (h : elements indent previous es = .ok ds) :
    ∀ t ∈ DictionaryElement.listTokens ds, Grammar.Flat t ∧ t.span = none := by
  induction es generalizing previous ds with
  | nil =>
    simp only [elements, pure, Except.pure, Except.ok.injEq] at h
    subst h
    simp [DictionaryElement.listTokens]
  | cons e es ih =>
    obtain ⟨d, rest, hd, hrest, rfl⟩ := elements_cons_eq_ok.1 h
    obtain ⟨period, ⟨hperiod, hplace⟩, rfl⟩ := tokens_element hd
    have hflat {t : Token} {k : TokenKind} (ht : t.kind = k) (hspan : t.span = none)
        (hk : k.opens = false ∧ k.closes = false) : Grammar.Flat t ∧ t.span = none := by
      subst ht
      exact ⟨hk, hspan⟩
    have hcomma : ∀ t ∈ Node.tokens (es.head?.map (separator e)),
        Grammar.Flat t ∧ t.span = none := by
      intro t ht
      cases hnext : es.head? with
      | none => simp [hnext, Node.tokens] at ht
      | some next =>
        obtain rfl : t = separator e next := by simpa [hnext, Node.tokens] using ht
        obtain ⟨hkind, hspan⟩ := kind_separator e next
        exact hflat hkind hspan ⟨rfl, rfl⟩
    intro t ht
    simp only [DictionaryElement.listTokens, DictionaryElement.tokens, Expr.tokens,
      List.mem_append, List.mem_cons, List.not_mem_nil, or_false] at ht
    obtain ((rfl | rfl) | rfl | rfl | ht) | ht := ht
    · exact hflat hperiod hplace ⟨rfl, rfl⟩
    · exact ⟨⟨rfl, rfl⟩, rfl⟩
    · exact ⟨⟨rfl, rfl⟩, rfl⟩
    · exact ⟨⟨rfl, rfl⟩, rfl⟩
    · exact hcomma t ht
    · exact ih hrest t ht

/-- The mapping is read as the dictionary it was built as. -/
theorem expr_mapping {cases : List CaseEntry} {indent : String} {value : Expr}
    (h : mapping cases indent = .ok value) {rest : List Token} (hrest : Grammar.EndsDecl rest) :
    Grammar.expr (value.tokens ++ rest) = .ok (value, rest) := by
  have hleft : Token.leftSquare.kind = .leftSquare := rfl
  cases cases with
  | nil =>
    obtain rfl : .emptyDictionary Token.leftSquare Token.colon Token.rightSquare = value := by
      simpa [mapping] using h
    have hright : Token.rightSquare.kind = .rightSquare := rfl
    have hflat : ∀ t ∈ [Token.colon], Grammar.Flat t := by
      simp [Grammar.Flat, Token.colon, Token.plain, TokenKind.opens, TokenKind.closes]
    have hread := Grammar.expr_brackets hleft hright hflat hrest
    have hshape : Grammar.exprOfTokens [Token.leftSquare, Token.colon, Token.rightSquare] =
        .emptyDictionary Token.leftSquare Token.colon Token.rightSquare := by
      have hbrackets := Grammar.brackets?_of_flat hleft hright hflat
      simp only [List.cons_append, List.nil_append] at hbrackets
      rw [Grammar.exprOfTokens_eq, hbrackets]
      rfl
    simp only [List.cons_append, List.nil_append, hshape] at hread
    exact hread
  | cons e es =>
    obtain ⟨ds, hds, h⟩ := bind_eq_ok.1 h
    simp only [pure, Except.pure, Except.ok.injEq] at h
    subst h
    obtain ⟨d, rest', -, -, rfl⟩ := elements_cons_eq_ok.1 hds
    have hright : (Token.rightSquare.withLeading (Trivia.newlineIndent indent)).kind =
      .rightSquare := rfl
    have hflat (t : Token) (ht : t ∈ DictionaryElement.listTokens (d :: rest')) :=
      (flat_of_elements hds t ht).1
    have hread := Grammar.expr_brackets hleft hright hflat hrest
    rw [Grammar.exprOfTokens_dictionary hleft hright hflat (elementsOfTokens_elements hds)] at hread
    simpa [Expr.tokens] using hread

theorem setLeading_staticVar (l : Trivia) (name : Token) (type : TypeRef) (value : Expr) :
    Node.setLeading l (staticVar name type value) = { staticVar name type value with
      preamble := ⟨[], [⟨(Token.ofKeyword "static").spaced.withLeading l, none⟩]⟩ } := by
  refine (BindingDecl.hasShape _).ext (BindingDecl.hasShape _) (g := Token.bare) ?_ ?_
  · exact (BindingDecl.hasShape _).like_setLeading l |>.symm
  · rw [Node.setLeading, (BindingDecl.hasShape _).tokens_modifyToken]
    simp [staticVar, Node.tokens]

/-- A static variable is read as it was built, on whatever line it stands. -/
theorem opening_staticVar {l : Trivia} {name : Token} {type : TypeRef} {value : Expr}
    {rest : List Token} (hname : name.kind = .identifier)
    (htype : ∀ ts, Grammar.type (type.tokens ++ Token.equal.spaced :: ts) =
      .ok (type, Token.equal.spaced :: ts))
    (hvalue : Grammar.expr (value.tokens ++ rest) = .ok (value, rest))
    (hrest : Grammar.EndsDecl rest) :
    Grammar.opening (Node.tokens (Node.setLeading l (staticVar name type value)) ++ rest) =
      .ok (.leaf (.binding (Node.setLeading l (staticVar name type value))), rest) := by
  have hopen := Grammar.opening_static
    (s := (Token.ofKeyword "static").spaced.withLeading l) rfl rfl
    (v := (Token.ofKeyword "var").spaced) rfl hname (c := Token.colon.spaced) rfl
    (htype (value.tokens ++ rest)) rfl hvalue hrest
  rw [setLeading_staticVar]
  simpa [staticVar, Node.tokens] using hopen

theorem span_of_mapping {cases : List CaseEntry} {indent : String} {value : Expr}
    (h : mapping cases indent = .ok value) : ∀ t ∈ value.tokens, t.span = none := by
  cases cases with
  | nil =>
    obtain rfl : .emptyDictionary Token.leftSquare Token.colon Token.rightSquare = value := by
      simpa [mapping] using h
    simp only [Expr.tokens, List.forall_mem_cons]
    exact ⟨rfl, rfl, rfl, by simp⟩
  | cons e es =>
    obtain ⟨ds, hds, h⟩ := bind_eq_ok.1 h
    simp only [pure, Except.pure, Except.ok.injEq] at h
    subst h
    simp only [Expr.tokens, List.forall_mem_cons, List.forall_mem_append]
    exact ⟨rfl, fun t ht ↦ (flat_of_elements hds t ht).2, rfl, by simp⟩

/-- A static variable that is read again as it was built. -/
structure Rereads (b : BindingDecl) : Prop where
  isStatic : ∃ name type value, b = staticVar name type value
  places : ∀ t ∈ Node.tokens b, t.span = none
  ready : Ready (Node.tokens b ++ [Token.endOfText])
  opens (l : Trivia) {rest : List Token} : Grammar.EndsDecl rest →
    Grammar.opening (Node.tokens (Node.setLeading l b) ++ rest) =
      .ok (.leaf (.binding (Node.setLeading l b)), rest)

theorem bindingMember_empty (name : Token) (type : TypeRef) (value : Expr) :
    ConformanceExtension.bindingMember .empty (staticVar name type value) =
      ⟨.binding (staticVar name type value), none⟩ := by
  rw [ConformanceExtension.bindingMember, setLeading_staticVar]
  rfl

/-- The tokens of a member that starts its text. -/
theorem tokens_bindingMember_empty (name : Token) (type : TypeRef) (value : Expr) :
    Node.tokens (ConformanceExtension.bindingMember .empty (staticVar name type value)) =
      Node.tokens (staticVar name type value) := by
  rw [bindingMember_empty]
  exact List.append_nil _

theorem span_of_staticVar {name : Token} {type : TypeRef} {value : Expr}
    (hname : name.span = none) (htype : ∀ t ∈ type.tokens, t.span = none)
    (hvalue : ∀ t ∈ value.tokens, t.span = none) :
    ∀ t ∈ Node.tokens (staticVar name type value), t.span = none := by
  have htokens : Node.tokens (staticVar name type value) = (Token.ofKeyword "static").spaced ::
      (Token.ofKeyword "var").spaced :: name :: Token.colon.spaced ::
        (type.tokens ++ Token.equal.spaced :: value.tokens) := by
    simp [staticVar, Node.tokens]
  rw [htokens]
  simp only [List.forall_mem_cons, List.forall_mem_append]
  exact ⟨rfl, rfl, hname, rfl, htype, rfl, hvalue⟩

theorem rereads_typeDisplay {enumName : Token} (hid : Text.isIdentifier enumName.text = true) :
    Rereads (typeDisplay enumName) where
  isStatic := ⟨_, _, _, rfl⟩
  places := by
    refine span_of_staticVar rfl ?_ ?_ <;> simp [TypeRef.tokens, Expr.tokens] <;> rfl
  ready := by
    have hvalue : (Token.stringLiteral enumName.name).Made :=
      Token.made_stringLiteral (Text.newline_not_mem_unticked hid)
    have htype : (Token.plain .identifier "TypeDisplayRepresentation").Made :=
      Token.made_identifier (by decide)
    rw [typeDisplay, ← tokens_bindingMember_empty]
    refine ready_staticVar Trivia.fresh_empty (Token.made_identifier (by decide)) rfl ?_
    exact htype.spaced.cons (.spaced rfl)
      (Token.made_equal.spaced.cons (.spaced rfl) (hvalue.last rfl))
  opens l rest hrest := by
    refine opening_staticVar rfl (fun ts ↦ Grammar.type_name rfl rfl) ?_ hrest
    exact Grammar.expr_string rfl hrest

theorem rereads_caseDisplay {enumName : Token} {cases : List CaseEntry} {indent : String}
    {b : BindingDecl} (h : caseDisplay enumName cases indent = .ok b) : Rereads b := by
  have hready := ready_caseDisplay h Trivia.fresh_empty Token.ready_endOfText
  obtain ⟨value, hid, hvalue, rfl⟩ := caseDisplay_eq_ok.1 h
  refine ⟨⟨_, _, _, rfl⟩, ?_, ?_, ?_⟩
  · refine span_of_staticVar rfl ?_ (span_of_mapping hvalue)
    simp only [TypeRef.tokens, List.forall_mem_cons, List.forall_mem_append]
    exact ⟨rfl, ⟨rfl, by simp⟩, rfl, ⟨rfl, by simp⟩, rfl, by simp⟩
  · rwa [tokens_bindingMember_empty] at hready
  · intro l rest hrest
    refine opening_staticVar rfl (fun ts ↦ ?_) (expr_mapping hvalue hrest) hrest
    exact Grammar.type_dictionary rfl rfl rfl rfl rfl rfl

theorem rereads_of_members {enumName : Token} {cases : List CaseEntry} {indent : String}
    {ms : Members} (h : members enumName cases indent = .ok ms) :
    Rereads ms.typeDisplay ∧ Rereads ms.caseDisplay := by
  obtain ⟨b, hb, h⟩ := bind_eq_ok.1 h
  simp only [pure, Except.pure, Except.ok.injEq] at h
  subst h
  obtain ⟨-, hid, -⟩ := caseDisplay_eq_ok.1 hb
  exact ⟨rereads_typeDisplay hid, rereads_caseDisplay hb⟩

/-- The member is read before whatever the reader takes for the end of a declaration. -/
theorem Rereads.itemsRead_cons {b : BindingDecl} (h : Rereads b) (l : Trivia)
    {rest last : List Token} {ms : List Member} (hend : Grammar.EndsDecl rest)
    (hrest : ItemsRead rest ms last) :
    ItemsRead (Node.tokens (ConformanceExtension.bindingMember l b) ++ rest)
      (ConformanceExtension.bindingMember l b :: ms) last := by
  have htokens : Node.tokens (ConformanceExtension.bindingMember l b) =
      Node.tokens (Node.setLeading l b) := List.append_nil _
  have hopen := h.opens l hend
  rw [← htokens] at hopen
  have hstart : Grammar.atBlockEnd
      (Node.tokens (ConformanceExtension.bindingMember l b) ++ rest) = false := by
    obtain ⟨name, type, value, rfl⟩ := h.isStatic
    rw [htokens, setLeading_staticVar]
    rfl
  exact .leaf_of_endsDecl hstart hopen hend hrest

/-- The tokens of the member, the first of them on the line that is asked for. -/
theorem Rereads.tokens_bindingMember {b : BindingDecl} (h : Rereads b) (l : Trivia) :
    ∃ ts, Node.tokens (ConformanceExtension.bindingMember l b) =
      (Token.ofKeyword "static").spaced.withLeading l :: ts ∧ ∀ t ∈ ts, t.span = none := by
  have hplaces := h.places
  obtain ⟨name, type, value, rfl⟩ := h.isStatic
  refine ⟨_, Display.tokens_bindingMember l _, ?_⟩
  exact (List.forall_mem_cons.1 hplaces).2

theorem Rereads.parseDecl_source {b : BindingDecl} (h : Rereads b) :
    ∃ d, parseDecl (Node.source b) = .ok d ∧ Node.detach d = .binding b := by
  have hend : Grammar.EndsDecl [] := by simp [Grammar.EndsDecl]
  have hread := h.itemsRead_cons .empty hend (.done rfl)
  have hstatic : (Token.ofKeyword "static").spaced.StartsSoft :=
    Grammar.startsSoft_of_mem_groupWords (by decide)
  obtain ⟨name, type, value, rfl⟩ := h.isStatic
  rw [tokens_bindingMember_empty, bindingMember_empty, List.append_nil] at hread
  exact EnumForge.parseDecl_source (d := .binding (staticVar name type value)) rfl hstatic h.ready
    h.places hread

end Display

/-! ### Extensions -/

/-- `extension Name: Conformance` with a block whose members are read as they are. -/
theorem Grammar.itemsRead_extension {k name c conformance left right : Token} {ms : List Member}
    (hk : k.bare = Token.ofKeyword "extension") (hname : name.kind = .identifier)
    (hcolon : c.kind = .colon) (hconformance : conformance.kind = .identifier)
    (hleft : left.kind = .leftBrace) (hright : right.kind = .rightBrace)
    (hread : ItemsRead (Member.listTokens ms ++ [right]) ms [right]) {x : ExtensionDecl}
    (hx : x = ⟨⟨⟨[], []⟩, k, .identifier name, some ⟨c, [⟨.identifier conformance, none⟩]⟩, none⟩,
      ⟨left, ms, right⟩⟩) : ItemsRead (Node.tokens x) [⟨.extension x, none⟩] [] := by
  subst hx
  have hstart : atBlockEnd (k :: name :: c :: conformance :: left ::
      (Member.listTokens ms ++ [right])) = false := by
    have hkind : k.kind = .keyword := congrArg Token.kind hk
    simp [atBlockEnd, hkind]
  exact .group hstart (opening_extension hk hname hcolon hconformance hleft)
    (by rw [expect, if_pos hleft]) hread (by rw [expect, if_pos hright]) (.done rfl)

namespace ConformanceExtension

/-- Both members, with the trivia that leads them. -/
def memberPair (ms : Display.Members) (first second : Trivia) : List Member :=
  [bindingMember first ms.typeDisplay, bindingMember second ms.caseDisplay]

section

variable {ms : Display.Members} (htype : Display.Rereads ms.typeDisplay)
  (hcase : Display.Rereads ms.caseDisplay) (first second : Trivia)
include htype hcase

theorem itemsRead_memberPair (hsecond : second.hasNewline = true) {right : Token}
    (hkind : right.kind = .rightBrace) (hline : right.startsLine = true) :
    ItemsRead (Member.listTokens (memberPair ms first second) ++ [right])
      (memberPair ms first second) [right] := by
  have hdone : ItemsRead [right] [] [right] := .done (by simp [Grammar.atBlockEnd, hkind])
  have hend : Grammar.EndsDecl [right] := by
    rintro t ⟨⟩
    exact ⟨hline, .inr hkind⟩
  have hread := hcase.itemsRead_cons second hend hdone
  have hend : Grammar.EndsDecl (Node.tokens (bindingMember second ms.caseDisplay) ++ [right]) := by
    obtain ⟨ts, hts, -⟩ := hcase.tokens_bindingMember second
    rw [hts]
    rintro t ⟨⟩
    exact ⟨hsecond, .inl rfl⟩
  have hread := htype.itemsRead_cons first hend hread
  rw [memberPair, Member.listTokens, Member.listTokens, Member.listTokens, List.append_nil,
    List.append_assoc]
  exact hread

theorem span_of_memberPair :
    ∀ t ∈ Member.listTokens (memberPair ms first second), t.span = none := by
  obtain ⟨ts₁, hts₁, hplaces₁⟩ := htype.tokens_bindingMember first
  obtain ⟨ts₂, hts₂, hplaces₂⟩ := hcase.tokens_bindingMember second
  have htokens : Member.listTokens (memberPair ms first second) =
      ((Token.ofKeyword "static").spaced.withLeading first :: ts₁) ++
        ((Token.ofKeyword "static").spaced.withLeading second :: ts₂) := by
    rw [← hts₁, ← hts₂, memberPair, Member.listTokens, Member.listTokens, Member.listTokens,
      List.append_nil]
    rfl
  rw [htokens, List.forall_mem_append, List.forall_mem_cons, List.forall_mem_cons]
  exact ⟨⟨rfl, hplaces₁⟩, rfl, hplaces₂⟩

end

theorem parseDecl_build {d : NominalDecl} {conformance : String} {x : ExtensionDecl}
    (h : build d conformance = .ok x) :
    ∃ d', parseDecl (Node.source x) = .ok d' ∧ Node.detach d' = .extension x := by
  have hready := ready_build h Trivia.fresh_empty Token.ready_endOfText
  obtain ⟨ms, hms, -, -, hx⟩ := build_eq_ok.1 h
  obtain ⟨htype, hcase⟩ := Display.rereads_of_members hms
  have hread := Grammar.itemsRead_extension rfl rfl rfl rfl rfl rfl
    (itemsRead_memberPair htype hcase _ _ rfl rfl rfl) hx
  have hsoft : (Token.ofKeyword "extension").spaced.StartsSoft :=
    Grammar.startsSoft_of_mem_groupWords (by decide)
  have htokens : Node.tokens x = (Token.ofKeyword "extension").spaced ::
      .plain .identifier d.head.name.text :: Token.colon.spaced ::
        (Token.plain .identifier conformance).spaced :: Token.leftBrace ::
          (Member.listTokens (memberPair ms (Trivia.newlineIndent Display.indentUnit)
            (Trivia.newlinesIndent 2 Display.indentUnit)) ++
              [Token.rightBrace.withLeading (.newlines 1)]) := by
    rw [hx]
    rfl
  have hempty : Node.setLeading .empty x = x := by
    refine x.hasShape.modifyToken_of_eq ?_
    rw [htokens]
    rintro t ⟨⟩
    rfl
  rw [hempty] at hready
  refine parseDecl_source (d := .extension x) htokens hsoft hready ?_ hread
  have hplaces : ∀ t ∈ Node.tokens x, t.span = none := by
    rw [htokens]
    simp only [List.forall_mem_cons, List.forall_mem_append]
    exact ⟨rfl, rfl, rfl, rfl, rfl, span_of_memberPair htype hcase _ _, rfl, by simp⟩
  exact hplaces

end ConformanceExtension

/-- Generated code is parsed to the nodes it was printed from, trivia included: both display
members, for any names, entries and indentation, and the extension that is put after an enum. -/
theorem parseDecl_generated :
    (∀ (enumName : Token) (cases : List CaseEntry) (indent : String) (ms : Display.Members),
      Display.members enumName cases indent = .ok ms → ∀ b ∈ [ms.typeDisplay, ms.caseDisplay],
        ∃ d, parseDecl (Node.source b) = .ok d ∧ Node.detach d = .binding b) ∧
    ∀ (conformance : String) (a : Attribute) (e : NominalDecl) (types : List TypeRef)
      (xs : List ExtensionDecl),
      ((ConformanceExtension.generator conformance).run a (.enum e) types).result = .ok xs →
        ∀ x ∈ xs, ∃ d, parseDecl (Node.source x) = .ok d ∧ Node.detach d = .extension x := by
  constructor
  · intro enumName cases indent ms h b hb
    obtain ⟨htype, hcase⟩ := Display.rereads_of_members h
    simp only [List.mem_cons, List.not_mem_nil, or_false] at hb
    obtain rfl | rfl := hb
    · exact htype.parseDecl_source
    · exact hcase.parseDecl_source
  · intro conformance a e types xs h x hx
    have hrun : (ConformanceExtension.build e conformance).map (fun x ↦ [x]) = .ok xs := h
    cases hbuild : ConformanceExtension.build e conformance with
    | error err => simp [hbuild, Except.map] at hrun
    | ok y =>
      obtain rfl : [y] = xs := by simpa [hbuild, Except.map] using hrun
      obtain rfl := List.mem_singleton.1 hx
      exact ConformanceExtension.parseDecl_build hbuild

/-- Entries of two declarations, one of them with a name in back-ticks. -/
def tideEntries : List CaseEntry :=
  [⟨.plain .identifier "ebb", 0⟩, ⟨.plain .identifier "`repeat`", 0⟩,
    ⟨.plain .identifier "Höhe", 1⟩]

def tideEnum : String := "@AppEnumGen enum Tide \x7b case ebb, `repeat`\n case Höhe \x7d"

theorem parseDecl_generated_tide :
    (∃ ms, Display.members (.plain .identifier "Tide") tideEntries "\t" = .ok ms ∧
      ∀ b ∈ [ms.typeDisplay, ms.caseDisplay],
        ∃ d, parseDecl (Node.source b) = .ok d ∧ Node.detach d = .binding b) ∧
    ∃ e a x, parseDecl tideEnum = .ok (.enum e) ∧ a ∈ e.head.preamble.attributes ∧
      ((ConformanceExtension.generator "AppEnum").run a (.enum e) []).result = .ok [x] ∧
        ∃ d, parseDecl (Node.source x) = .ok d ∧ Node.detach d = .extension x := by
  constructor
  · have hok : (Display.members (.plain .identifier "Tide") tideEntries "\t").isOk = true := by
      decide +kernel
    cases hms : Display.members (.plain .identifier "Tide") tideEntries "\t" with
    | error e => simp [hms, Except.isOk, Except.toBool] at hok
    | ok ms => exact ⟨ms, rfl, parseDecl_generated.1 _ _ _ ms hms⟩
  · have hrun : ((parseEnum? tideEnum).any fun e ↦
        (ConformanceExtension.build e "AppEnum").isOk &&
          !e.head.preamble.attributes.isEmpty) = true := by decide +kernel
    obtain ⟨e, he, hrun⟩ := (Option.any_eq_true _ _).1 hrun
    obtain ⟨hok, hattributes⟩ := Bool.and_eq_true_iff.1 hrun
    obtain ⟨a, ha⟩ : ∃ a, a ∈ e.head.preamble.attributes :=
      List.exists_mem_of_ne_nil _ (by simpa using hattributes)
    cases hx : ConformanceExtension.build e "AppEnum" with
    | error err => simp [hx, Except.isOk, Except.toBool] at hok
    | ok x =>
      have hresult : ((ConformanceExtension.generator "AppEnum").run a (.enum e) []).result =
          .ok [x] := congrArg (Except.map fun x ↦ [x]) hx
      exact ⟨e, a, x, parseEnum?_eq_some.1 he, ha, hresult,
        parseDecl_generated.2 "AppEnum" a e [] [x] hresult x (by simp)⟩

end EnumForge
