import EnumForge.AppEnum.Extension
import EnumForge.Grammar.Clause
import EnumForge.Proofs.Token.Made
import EnumForge.Proofs.Tree.Walk

/-!
# Generated code reads back

The display members and the extension that holds them are made of tokens that keep apart from one
another, so they are read back as they were built wherever they are put before other tokens.
-/

namespace EnumForge

open Token (Made Meets Ready)

theorem Token.identifier_eq_ok {text : String} {t : Token} :
    Token.identifier text = .ok t ↔
      Text.isIdentifier text = true ∧ t = .plain .identifier text := by
  unfold Token.identifier
  split
  next hid => simp [hid, eq_comm]
  next hid => simp [hid]

theorem Token.continues_identifier (text : String) {c : Char} (hc : Text.isWordPart c = false) :
    (Token.plain .identifier text).continues c = false := by
  simp [Token.continues, Token.plain, hc]

/-- The name of an identifier is made of characters of words. -/
theorem Text.notMem_unticked {text : String} (h : isIdentifier text = true) {c : Char}
    (hc : isWordPart c = false) : c ∉ (unticked text).toList := by
  unfold isIdentifier at h
  unfold unticked
  split at h
  next inner hinner => simpa using Token.not_mem_of_isWord h hc
  next =>
    simp only [Bool.and_eq_true] at h
    exact Token.not_mem_of_isWord h.2 hc

/-- The name of an identifier stays on its line. -/
theorem Text.newline_not_mem_unticked {text : String} (h : isIdentifier text = true) :
    '\n' ∉ (unticked text).toList := notMem_unticked h (by decide)

namespace Display

theorem element_eq_ok {indent : String} {startsLine : Bool} {e : CaseEntry}
    {next : Option CaseEntry} {d : DictionaryElement} :
    element indent startsLine e next = .ok d ↔ Text.isIdentifier e.name.text = true ∧
      d = ⟨.implicitMember
          (if startsLine then Token.period.withLeading (Trivia.newlineIndent indent)
            else Token.period) (.plain .identifier e.name.text), Token.colon.spaced,
        .string (Token.stringLiteral e.label), next.map (separator e)⟩ := by
  unfold element Token.identifier
  cases Text.isIdentifier e.name.text <;>
    simp [bind, Except.bind, pure, Except.pure, eq_comm]

theorem made_separator (e next : CaseEntry) : (separator e next).Made := by
  have hcomma := Token.made_of_isPunctuation Token.isPunctuation_comma rfl rfl
  unfold separator
  split
  · exact hcomma.spaced
  · exact hcomma

theorem isPunctuation_separator (e next : CaseEntry) : (separator e next).IsPunctuation := by
  unfold separator
  split <;> exact Token.isPunctuation_comma

/-- An entry of a mapping: a comma may be followed by anything, a label by a line break. -/
theorem ready_element {indent : String} {startsLine : Bool} {e : CaseEntry}
    {next : Option CaseEntry} {d : DictionaryElement}
    (h : element indent startsLine e next = .ok d) {n : Token} {ns : List Token}
    (hn : Ready (n :: ns)) (hline : next = none → n.leading.text ≠ "") :
    Ready (d.tokens ++ n :: ns) := by
  obtain ⟨hid, rfl⟩ := element_eq_ok.1 h
  have hname := Token.made_identifier hid
  have hcolon := (Token.made_of_isPunctuation Token.isPunctuation_colon rfl rfl).spaced
  have hlabel : (Token.stringLiteral e.label).Made :=
    Token.made_stringLiteral (Text.newline_not_mem_unticked hid)
  have hperiod := Token.made_of_isPunctuation Token.isPunctuation_period rfl rfl
  have hstart : ∃ p : Token,
      (if startsLine then Token.period.withLeading (Trivia.newlineIndent indent)
        else Token.period) = p ∧ p.Made ∧ p.IsPunctuation := by
    cases startsLine with
    | true =>
      exact ⟨_, rfl, hperiod.withLeading (Trivia.fresh_newlinesIndent 0 indent),
        Token.isPunctuation_period⟩
    | false => exact ⟨_, rfl, hperiod, Token.isPunctuation_period⟩
  obtain ⟨p, hp, hpmade, hpunct⟩ := hstart
  rw [hp]
  have hword : Token.Meets (.plain .identifier e.name.text) Token.colon.spaced :=
    .apart rfl (by decide) (Token.continues_identifier _ (by decide))
  cases next with
  | none =>
    exact hpmade.cons (.punctuation hpunct) (hname.cons hword
      (hcolon.cons (.spaced rfl) (hlabel.cons (.line (hline rfl)) hn)))
  | some next =>
    have hcomma := (made_separator e next).cons (.punctuation (isPunctuation_separator e next)) hn
    have hquote : Token.Meets (.stringLiteral e.label) (separator e next) := by
      unfold separator
      split <;> exact .apart rfl (by decide) rfl
    exact hpmade.cons (.punctuation hpunct) (hname.cons hword
      (hcolon.cons (.spaced rfl) (hlabel.cons hquote hcomma)))

theorem elements_cons_eq_ok {indent : String} {previous : Option CaseEntry} {e : CaseEntry}
    {es : List CaseEntry} {ds : List DictionaryElement} :
    elements indent previous (e :: es) = .ok ds ↔ ∃ d ds',
      element indent (previous.all fun p ↦ p.declaration != e.declaration) e es.head? = .ok d ∧
        elements indent (some e) es = .ok ds' ∧ ds = d :: ds' := by
  rw [elements, bind_eq_ok]
  constructor
  · rintro ⟨d, hd, h⟩
    obtain ⟨ds', hds, h⟩ := bind_eq_ok.1 h
    simp only [pure, Except.pure, Except.ok.injEq] at h
    exact ⟨d, ds', hd, hds, h.symm⟩
  · rintro ⟨d, ds', hd, hds, rfl⟩
    exact ⟨d, hd, bind_eq_ok.2 ⟨ds', hds, rfl⟩⟩

/-- The entries of a mapping, before the bracket that closes it. -/
theorem ready_elements {indent : String} {previous : Option CaseEntry} {es : List CaseEntry}
    {ds : List DictionaryElement} (h : elements indent previous es = .ok ds) {n : Token}
    {ns : List Token} (hn : Ready (n :: ns)) (hline : n.leading.text ≠ "") :
    Ready (DictionaryElement.listTokens ds ++ n :: ns) := by
  induction es generalizing previous ds with
  | nil =>
    simp only [elements, pure, Except.pure, Except.ok.injEq] at h
    subst h
    exact hn
  | cons e es ih =>
    obtain ⟨d, ds', hd, hds, rfl⟩ := elements_cons_eq_ok.1 h
    have hrest := ih hds
    rw [DictionaryElement.listTokens, List.append_assoc]
    cases es with
    | nil =>
      simp only [elements, pure, Except.pure, Except.ok.injEq] at hds
      subst hds
      exact ready_element hd hn fun _ ↦ hline
    | cons e' es =>
      cases hlist : DictionaryElement.listTokens ds' ++ n :: ns with
      | nil => simp at hlist
      | cons m ms =>
        rw [hlist] at hrest
        exact ready_element hd hrest fun hnone ↦ by simp at hnone

theorem ready_mapping {cases : List CaseEntry} {indent : String} {value : Expr}
    (h : mapping cases indent = .ok value) {n : Token} {ns : List Token} (hn : Ready (n :: ns)) :
    Ready (value.tokens ++ n :: ns) := by
  have hleft := Token.made_of_isPunctuation Token.isPunctuation_leftSquare rfl rfl
  have hright := Token.made_of_isPunctuation Token.isPunctuation_rightSquare rfl rfl
  unfold mapping at h
  split at h
  · simp only [Except.ok.injEq] at h
    subst h
    have hcolon := Token.made_of_isPunctuation Token.isPunctuation_colon rfl rfl
    exact hleft.cons (.punctuation Token.isPunctuation_leftSquare)
      (hcolon.cons (.punctuation Token.isPunctuation_colon)
        (hright.cons (.punctuation Token.isPunctuation_rightSquare) hn))
  · obtain ⟨entries, hentries, h⟩ := bind_eq_ok.1 h
    simp only [pure, Except.pure, Except.ok.injEq] at h
    subst h
    have hend : Ready (Token.rightSquare.withLeading (Trivia.newlineIndent indent) :: n :: ns) :=
      (hright.withLeading (Trivia.fresh_newlinesIndent 0 indent)).cons
        (.punctuation Token.isPunctuation_rightSquare) hn
    have hinner := ready_elements hentries hend (Trivia.text_newlinesIndent_ne 0 indent)
    rw [Expr.tokens, List.cons_append, List.append_assoc]
    exact hleft.cons_of_meets (fun _ ↦ .punctuation Token.isPunctuation_leftSquare) hinner

theorem tokens_bindingMember (l : Trivia) (b : BindingDecl) :
    Node.tokens (ConformanceExtension.bindingMember l b) =
      (Node.tokens b).modify 0 (·.withLeading l) := by
  have htokens : Node.tokens (ConformanceExtension.bindingMember l b) =
      Node.tokens (Node.setLeading l b) ++ [] := rfl
  rw [htokens, List.append_nil, Node.setLeading, b.hasShape.tokens_modifyToken]

theorem made_keyword {text : String} (hword : Text.isWord text.toList = true)
    (hkind : Lexeme.wordKind text.toList = .keyword) : (Token.ofKeyword text).Made := by
  have hmade := Token.made_word hword
  rwa [hkind] at hmade

theorem tokens_staticVar (l : Trivia) (name : Token) (type : TypeRef) (value : Expr) :
    Node.tokens (ConformanceExtension.bindingMember l (staticVar name type value)) =
      (Token.ofKeyword "static").spaced.withLeading l :: (Token.ofKeyword "var").spaced :: name ::
        Token.colon.spaced :: (type.tokens ++ Token.equal.spaced :: value.tokens) := by
  rw [tokens_bindingMember]
  simp [staticVar, Node.tokens]

/-- `static var name:` before a type. -/
theorem ready_staticVar {l : Trivia} (hl : l.Fresh) {name n : Token} (hname : name.Made)
    (hkind : name = .plain .identifier name.text) {type : TypeRef} {value : Expr}
    {ns : List Token}
    (hrest : Ready (type.tokens ++ Token.equal.spaced :: (value.tokens ++ n :: ns))) :
    Ready (Node.tokens (ConformanceExtension.bindingMember l (staticVar name type value)) ++
      n :: ns) := by
  have hstatic : (Token.ofKeyword "static").Made := made_keyword (by decide) (by decide)
  have hvar : (Token.ofKeyword "var").Made := made_keyword (by decide) (by decide)
  have hcolon := (Token.made_of_isPunctuation Token.isPunctuation_colon rfl rfl).spaced
  have hmeets : name.Meets Token.colon.spaced := by
    rw [hkind]
    exact .apart rfl (by decide) (Token.continues_identifier _ (by decide))
  rw [tokens_staticVar]
  simp only [List.cons_append, List.append_assoc]
  exact (hstatic.spaced.withLeading hl).cons (.spaced rfl) (hvar.spaced.cons (.spaced rfl)
    (hname.cons hmeets (hcolon.cons_of_meets (fun _ ↦ .spaced rfl) hrest)))

theorem ready_typeDisplay {enumName : Token} (hid : Text.isIdentifier enumName.text = true)
    {l : Trivia} (hl : l.Fresh) {n : Token} {ns : List Token} (hn : Ready (n :: ns))
    (hline : n.leading.text ≠ "") :
    Ready (Node.tokens (ConformanceExtension.bindingMember l (typeDisplay enumName)) ++
      n :: ns) := by
  have hvalue : (Token.stringLiteral enumName.name).Made :=
    Token.made_stringLiteral (Text.newline_not_mem_unticked hid)
  have htype : (Token.plain .identifier "TypeDisplayRepresentation").Made :=
    Token.made_identifier (by decide)
  refine ready_staticVar hl (Token.made_identifier (by decide)) rfl ?_
  exact htype.spaced.cons (.spaced rfl)
    (Token.made_equal.spaced.cons (.spaced rfl) (hvalue.cons (.line hline) hn))

theorem caseDisplay_eq_ok {enumName : Token} {cases : List CaseEntry} {indent : String}
    {b : BindingDecl} :
    caseDisplay enumName cases indent = .ok b ↔ ∃ value,
      Text.isIdentifier enumName.text = true ∧ mapping cases indent = .ok value ∧
        b = staticVar (.plain .identifier "caseDisplayRepresentations")
          (.dictionary Token.leftSquare (.identifier (.plain .identifier enumName.text))
            Token.colon.spaced (.identifier (.plain .identifier "DisplayRepresentation"))
            Token.rightSquare.spaced) value := by
  rw [caseDisplay, bind_eq_ok]
  constructor
  · rintro ⟨key, hkey, h⟩
    obtain ⟨value, hvalue, h⟩ := bind_eq_ok.1 h
    simp only [pure, Except.pure, Except.ok.injEq] at h
    obtain ⟨hid, rfl⟩ := Token.identifier_eq_ok.1 hkey
    exact ⟨value, hid, hvalue, h.symm⟩
  · rintro ⟨value, hid, hvalue, rfl⟩
    exact ⟨_, Token.identifier_eq_ok.2 ⟨hid, rfl⟩, bind_eq_ok.2 ⟨value, hvalue, rfl⟩⟩

theorem ready_caseDisplay {enumName : Token} {cases : List CaseEntry} {indent : String}
    {b : BindingDecl} (h : caseDisplay enumName cases indent = .ok b) {l : Trivia} (hl : l.Fresh)
    {n : Token} {ns : List Token} (hn : Ready (n :: ns)) :
    Ready (Node.tokens (ConformanceExtension.bindingMember l b) ++ n :: ns) := by
  obtain ⟨value, hid, hvalue, rfl⟩ := caseDisplay_eq_ok.1 h
  have hkey := Token.made_identifier hid
  have hleft := Token.made_of_isPunctuation Token.isPunctuation_leftSquare rfl rfl
  have hcolon := (Token.made_of_isPunctuation Token.isPunctuation_colon rfl rfl).spaced
  have hright := (Token.made_of_isPunctuation Token.isPunctuation_rightSquare rfl rfl).spaced
  have htype : (Token.plain .identifier "DisplayRepresentation").Made :=
    Token.made_identifier (by decide)
  refine ready_staticVar hl (Token.made_identifier (by decide)) rfl ?_
  have hassign := Token.made_equal.spaced.cons_of_meets (fun _ ↦ .spaced rfl)
    (ready_mapping hvalue hn)
  exact hleft.cons (.punctuation Token.isPunctuation_leftSquare)
    (hkey.cons (.apart rfl (by decide) (Token.continues_identifier _ (by decide)))
      (hcolon.cons (.spaced rfl)
        (htype.cons (.apart rfl (by decide) (Token.continues_identifier _ (by decide)))
          (hright.cons (.spaced rfl) hassign))))

theorem membersOf_eq_ok {d : NominalDecl} {indent : String} {ms : Members} :
    membersOf d indent = .ok ms ↔ ∃ b,
      caseDisplay d.head.name d.block.cases indent = .ok b ∧ ms = ⟨typeDisplay d.head.name, b⟩ := by
  rw [membersOf, members, bind_eq_ok]
  simp only [pure, Except.pure, Except.ok.injEq, eq_comm]

/-- Both members, one after the other. -/
theorem ready_members {d : NominalDecl} {indent : String} {ms : Members}
    (h : membersOf d indent = .ok ms) {l : Trivia} (hl : l.Fresh) (k : Nat) (inner : String)
    {n : Token} {ns : List Token} (hn : Ready (n :: ns)) :
    Ready (Node.tokens (ConformanceExtension.bindingMember l ms.typeDisplay) ++
      (Node.tokens (ConformanceExtension.bindingMember (Trivia.newlinesIndent (k + 1) inner)
        ms.caseDisplay) ++ n :: ns)) := by
  obtain ⟨b, hb, rfl⟩ := membersOf_eq_ok.1 h
  obtain ⟨value, hid, -, hbinding⟩ := caseDisplay_eq_ok.1 hb
  have hsecond := ready_caseDisplay hb (Trivia.fresh_newlinesIndent k inner) hn
  have hfirst : ∃ ts, Node.tokens
      (ConformanceExtension.bindingMember (Trivia.newlinesIndent (k + 1) inner) b) =
        (Token.ofKeyword "static").spaced.withLeading (Trivia.newlinesIndent (k + 1) inner) ::
          ts := by
    rw [tokens_bindingMember, hbinding]
    exact ⟨_, rfl⟩
  obtain ⟨ts, hts⟩ := hfirst
  dsimp only
  rw [hts] at hsecond ⊢
  exact ready_typeDisplay hid hl hsecond (Trivia.text_newlinesIndent_ne k inner)

end Display

namespace ConformanceExtension

theorem build_eq_ok {d : NominalDecl} {conformance : String} {e : ExtensionDecl} :
    build d conformance = .ok e ↔ ∃ ms, Display.membersOf d Display.indentUnit = .ok ms ∧
      Text.isIdentifier d.head.name.text = true ∧ Text.isIdentifier conformance = true ∧
        e = ⟨⟨⟨[], []⟩, (Token.ofKeyword "extension").spaced,
            .identifier (.plain .identifier d.head.name.text),
            some (soleConformance (.plain .identifier conformance)), none⟩,
          ⟨Token.leftBrace,
            [bindingMember (Trivia.newlineIndent Display.indentUnit) ms.typeDisplay,
              bindingMember (Trivia.newlinesIndent 2 Display.indentUnit) ms.caseDisplay],
            Token.rightBrace.withLeading (Trivia.newlines 1)⟩⟩ := by
  rw [build, bind_eq_ok]
  constructor
  · rintro ⟨ms, hms, h⟩
    obtain ⟨extended, hext, h⟩ := bind_eq_ok.1 h
    obtain ⟨token, htoken, h⟩ := bind_eq_ok.1 h
    simp only [pure, Except.pure, Except.ok.injEq] at h
    obtain ⟨hid, rfl⟩ := Token.identifier_eq_ok.1 hext
    obtain ⟨hconf, rfl⟩ := Token.identifier_eq_ok.1 htoken
    exact ⟨ms, hms, hid, hconf, h.symm⟩
  · rintro ⟨ms, hms, hid, hconf, rfl⟩
    exact ⟨ms, hms, bind_eq_ok.2 ⟨_, Token.identifier_eq_ok.2 ⟨hid, rfl⟩,
      bind_eq_ok.2 ⟨_, Token.identifier_eq_ok.2 ⟨hconf, rfl⟩, rfl⟩⟩⟩

/-- A generated extension is read back before whatever follows it. -/
theorem ready_build {d : NominalDecl} {conformance : String} {e : ExtensionDecl}
    (h : build d conformance = .ok e) {l : Trivia} (hl : l.Fresh) {ns : List Token}
    (hn : Ready ns) : Ready (Node.tokens (Node.setLeading l e) ++ ns) := by
  obtain ⟨ms, hms, hid, hconf, rfl⟩ := build_eq_ok.1 h
  have hkeyword : (Token.ofKeyword "extension").Made :=
    Display.made_keyword (by decide) (by decide)
  have hname := Token.made_identifier hid
  have hconf := (Token.made_identifier hconf).spaced
  have hcolon := (Token.made_of_isPunctuation Token.isPunctuation_colon rfl rfl).spaced
  have hleft := Token.made_of_isPunctuation Token.isPunctuation_leftBrace rfl rfl
  have hright := (Token.made_of_isPunctuation Token.isPunctuation_rightBrace rfl rfl).withLeading
    (Trivia.fresh_newlines 0)
  have hend := hright.cons_of_meets (fun _ ↦ .punctuation Token.isPunctuation_rightBrace) hn
  have hmembers := Display.ready_members hms (Trivia.fresh_newlinesIndent 0 Display.indentUnit) 1
    Display.indentUnit hend
  have hblock := hleft.cons_of_meets (fun _ ↦ .punctuation Token.isPunctuation_leftBrace) hmembers
  rw [Node.setLeading, (ExtensionDecl.hasShape _).tokens_modifyToken]
  have hall := (hkeyword.spaced.withLeading hl).cons (.spaced rfl)
    (hname.cons (.apart rfl (by decide) (Token.continues_identifier _ (by decide)))
      (hcolon.cons (.spaced rfl) (hconf.cons (.spaced rfl) hblock)))
  simpa [Node.tokens, ExtensionDecl.tokens, MemberBlock.tokens, Member.listTokens,
    soleConformance, TypeRef.tokens, Trivia.newlineIndent] using hall

end ConformanceExtension

end EnumForge
