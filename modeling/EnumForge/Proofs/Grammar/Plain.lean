import EnumForge.Proofs.Grammar.Sight

/-!
# Reading plain shapes

Where tokens of types and expressions are known by their kinds, the reader is run on them: a name,
a dictionary of names, a quoted text, and a bracket around tokens that open and close nothing.
-/

namespace EnumForge.Grammar

/-! ### Groups without groups in them -/

/-- A token that opens and closes nothing. -/
def Flat (t : Token) : Prop := t.kind.opens = false ∧ t.kind.closes = false

theorem splitAtKind?_of_flat {kind : TokenKind} {before : List Token} {t : Token}
    (hflat : ∀ u ∈ before, Flat u ∧ u.kind ≠ kind) (ht : t.kind = kind) (after : List Token) :
    splitAtKind? kind 0 (before ++ t :: after) = some (before, t, after) := by
  induction before with
  | nil => simp [splitAtKind?, ht]
  | cons u before ih =>
    obtain ⟨⟨⟨hopens, hcloses⟩, hne⟩, hrest⟩ := List.forall_mem_cons.1 hflat
    rw [List.cons_append, splitAtKind?, if_neg fun h ↦ hne h.1]
    simp [hopens, hcloses, ih hrest]

theorem splitAtKind?_eq_none {kind : TokenKind} {ts : List Token}
    (hflat : ∀ u ∈ ts, Flat u ∧ u.kind ≠ kind) : splitAtKind? kind 0 ts = none := by
  induction ts with
  | nil => rfl
  | cons u ts ih =>
    obtain ⟨⟨⟨hopens, hcloses⟩, hne⟩, hrest⟩ := List.forall_mem_cons.1 hflat
    rw [splitAtKind?, if_neg fun h ↦ hne h.1]
    simp [hopens, hcloses, ih hrest]

theorem brackets?_of_flat {left right : Token} {inner : List Token}
    (hleft : left.kind = .leftSquare) (hright : right.kind = .rightSquare)
    (hflat : ∀ u ∈ inner, Flat u) :
    brackets? (left :: (inner ++ [right])) = some (left, inner, right) := by
  have hsplit : splitAtKind? .rightSquare 0 (inner ++ [right]) = some (inner, right, []) := by
    refine splitAtKind?_of_flat (fun u hu ↦ ⟨hflat u hu, ?_⟩) hright []
    intro hkind
    have hcloses := (hflat u hu).2
    simp [hkind, TokenKind.closes] at hcloses
  rw [brackets?, if_pos hleft, hsplit]

/-- An expression in brackets ends with its bracket, where the next token does not go on. -/
theorem exprRun_of_flat {inner rest : List Token} {right : Token} (hflat : ∀ u ∈ inner, Flat u)
    (hright : right.kind = .rightSquare)
    (hrest : exprRun 0 (some right) rest = some ([], rest)) (last : Option Token) :
    exprRun 1 last (inner ++ right :: rest) = some (inner ++ [right], rest) := by
  induction inner generalizing last with
  | nil => simp [exprRun, hright, TokenKind.opens, TokenKind.closes, hrest, consRun]
  | cons u inner ih =>
    obtain ⟨⟨hopens, hcloses⟩, hflat⟩ := List.forall_mem_cons.1 hflat
    rw [List.cons_append, exprRun, if_neg (by simp)]
    simp [hopens, hcloses, ih hflat, consRun]

/-! ### Types -/

/-- A token before which a type ends. -/
theorem typeRun_stop {started : Bool} {t : Token} {ts : List Token} (h : endsType t = true) :
    typeRun 0 started (t :: ts) = some ([], t :: ts) := by
  rw [typeRun, if_pos ⟨rfl, by simp [h]⟩]

theorem typeRun_name {started : Bool} {name : Token} {run ts rest : List Token}
    (hname : name.kind = .identifier) (hline : started = true → name.startsLine = false)
    (h : typeRun 0 true ts = some (run, rest)) :
    typeRun 0 started (name :: ts) = some (name :: run, rest) := by
  have hgo : ¬((0 : Int) = 0 ∧ (endsType name || started && name.startsLine) = true) := by
    cases started <;> simp_all [endsType, Token.isKeyword]
  rw [typeRun, if_neg hgo]
  simp [typeDelta, angleDelta, hname, h, consRun]

theorem type_name {name t : Token} {ts : List Token} (hname : name.kind = .identifier)
    (ht : endsType t = true) : type (name :: t :: ts) = .ok (.identifier name, t :: ts) := by
  have hrun : typeRun 0 false (name :: t :: ts) = some ([name], t :: ts) :=
    typeRun_name hname (by simp) (typeRun_stop ht)
  rw [type, hrun]
  dsimp only
  rw [typeOfTokens_eq]
  simp [only?, hname]

theorem type_dictionary {left key colon value right t : Token} {ts : List Token}
    (hleft : left.kind = .leftSquare) (hkey : key.kind = .identifier)
    (hcolon : colon.kind = .colon) (hvalue : value.kind = .identifier)
    (hright : right.kind = .rightSquare) (ht : endsType t = true) :
    type (left :: key :: colon :: value :: right :: t :: ts) =
      .ok (.dictionary left (.identifier key) colon (.identifier value) right, t :: ts) := by
  have hrun : typeRun 0 false (left :: key :: colon :: value :: right :: t :: ts) =
      some ([left, key, colon, value, right], t :: ts) := by
    have hstart : endsType left = false := by simp [endsType, hleft, Token.isKeyword]
    simp [typeRun, typeDelta, angleDelta, hstart, hleft, hkey, hcolon, hvalue, hright, ht, consRun]
  have hflat : ∀ u ∈ [key, colon, value], Flat u := by
    simp [Flat, hkey, hcolon, hvalue, TokenKind.opens, TokenKind.closes]
  have hbrackets : brackets? [left, key, colon, value, right] =
      some (left, [key, colon, value], right) := brackets?_of_flat hleft hright hflat
  have hpair : keyValue? [key, colon, value] = some ([key], colon, [value]) := by
    have hflat : ∀ u ∈ [key], Flat u ∧ u.kind ≠ .colon := by
      simp [Flat, hkey, TokenKind.opens, TokenKind.closes]
    have hsplit := splitAtKind?_of_flat hflat hcolon [value]
    rw [keyValue?]
    simp only [List.cons_append, List.nil_append] at hsplit
    rw [hsplit]
  have hname (n : Token) (hn : n.kind = .identifier) : typeOfTokens [n] = .identifier n := by
    rw [typeOfTokens_eq]
    simp [only?, hn]
  rw [type, hrun]
  dsimp only
  rw [typeOfTokens_eq, hbrackets]
  dsimp only
  rw [hpair]
  simp [only?, hname key hkey, hname value hvalue]

/-! ### Dictionaries -/

/-- An entry `.name: "text"` of a dictionary, with the entries after its comma. -/
theorem elementsOfTokens_entry {period name colon literal : Token} {comma : Option Token}
    {rest : List Token} {es : List DictionaryElement} (hperiod : period.kind = .period)
    (hname : name.kind = .identifier) (hcolon : colon.kind = .colon)
    (hliteral : literal.kind = .stringLiteral) (hcomma : ∀ c ∈ comma, c.kind = .comma)
    (hlast : comma = none → rest = []) (h : elementsOfTokens rest = some es) :
    elementsOfTokens (period :: name :: colon :: literal :: (Node.tokens comma ++ rest)) =
      some (⟨.implicitMember period name, colon, .string literal, comma⟩ :: es) := by
  have hflat : ∀ u ∈ [period, name, colon, literal], Flat u ∧ u.kind ≠ .comma := by
    simp [Flat, hperiod, hname, hcolon, hliteral, TokenKind.opens, TokenKind.closes]
  have hsplit : splitAtComma (period :: name :: colon :: literal :: (Node.tokens comma ++ rest)) =
      ([period, name, colon, literal], comma, rest) := by
    rw [splitAtComma]
    cases comma with
    | none =>
      obtain rfl := hlast rfl
      have hnone := splitAtKind?_eq_none hflat
      simp only [Node.tokens, List.append_nil]
      rw [hnone]
    | some c =>
      have hsome := splitAtKind?_of_flat hflat (hcomma c rfl) rest
      simp only [List.cons_append, List.nil_append] at hsome
      simp only [Node.tokens, List.cons_append, List.nil_append]
      rw [hsome]
  have hpair : keyValue? [period, name, colon, literal] =
      some ([period, name], colon, [literal]) := by
    have hflat : ∀ u ∈ [period, name], Flat u ∧ u.kind ≠ .colon := by
      simp [Flat, hperiod, hname, TokenKind.opens, TokenKind.closes]
    have hsome := splitAtKind?_of_flat hflat hcolon [literal]
    simp only [List.cons_append, List.nil_append] at hsome
    rw [keyValue?, hsome]
  have hkey : exprOfTokens [period, name] = .implicitMember period name := by
    rw [exprOfTokens_eq]
    simp [only?, implicitMember?, hperiod, hname]
  have hvalue : exprOfTokens [literal] = .string literal := by
    rw [exprOfTokens_eq]
    simp [only?, hliteral]
  rw [elementsOfTokens_cons, hsplit]
  dsimp only
  rw [hpair]
  dsimp only
  rw [h, hkey, hvalue]
  rfl

/-- A dictionary with entries. -/
theorem exprOfTokens_dictionary {left right : Token} {inner : List Token} {e : DictionaryElement}
    {es : List DictionaryElement} (hleft : left.kind = .leftSquare)
    (hright : right.kind = .rightSquare) (hflat : ∀ u ∈ inner, Flat u)
    (h : elementsOfTokens inner = some (e :: es)) :
    exprOfTokens (left :: (inner ++ [right])) = .dictionary left (e :: es) right := by
  have hcolon : only? .colon inner = none := by
    cases hone : only? .colon inner with
    | none => rfl
    | some t =>
      obtain rfl := only?_eq_some hone
      have ht : t.kind = .colon := by simpa [only?] using hone
      rw [elementsOfTokens_cons] at h
      simp [splitAtComma, splitAtKind?, keyValue?, ht] at h
  have hstring : only? .stringLiteral (left :: (inner ++ [right])) = none := by
    cases inner <;> rfl
  have hmember : implicitMember? (left :: (inner ++ [right])) = none := by
    cases inner with
    | nil => simp [implicitMember?, hleft]
    | cons t inner => cases inner <;> rfl
  rw [exprOfTokens_eq, hstring, hmember, brackets?_of_flat hleft hright hflat]
  dsimp only
  rw [hcolon, h]

/-! ### Static variables -/

/-- A token before which a declaration ends, and no block starts. -/
def EndsDecl (ts : List Token) : Prop :=
  ∀ t ∈ ts.head?, t.startsLine = true ∧ (t.kind = .keyword ∨ t.kind = .rightBrace)

theorem EndsDecl.exprRun {ts : List Token} (h : EndsDecl ts) (last : Token) :
    exprRun 0 (some last) ts = some ([], ts) := by
  cases ts with
  | nil => rfl
  | cons t ts =>
    obtain ⟨hline, hkind⟩ := h t rfl
    have hends : endsExpr (some last) t = true := by
      rcases hkind with hkind | hkind <;> simp [endsExpr, hkind, hline]
    rw [Grammar.exprRun, if_pos ⟨rfl, hends⟩]

theorem expr_string {literal : Token} {rest : List Token} (h : literal.kind = .stringLiteral)
    (hrest : EndsDecl rest) : expr (literal :: rest) = .ok (.string literal, rest) := by
  have hrun : exprRun 0 none (literal :: rest) = some ([literal], rest) := by
    simp [exprRun, endsExpr, h, TokenKind.opens, TokenKind.closes, hrest.exprRun, consRun]
  rw [expr, hrun]
  dsimp only
  rw [exprOfTokens_eq]
  simp [only?, h]

/-- An expression in brackets. -/
theorem expr_brackets {left right : Token} {inner rest : List Token}
    (hleft : left.kind = .leftSquare) (hright : right.kind = .rightSquare)
    (hflat : ∀ u ∈ inner, Flat u) (hrest : EndsDecl rest) :
    expr (left :: (inner ++ right :: rest)) =
      .ok (exprOfTokens (left :: (inner ++ [right])), rest) := by
  have hrun : exprRun 0 none (left :: (inner ++ right :: rest)) =
      some (left :: (inner ++ [right]), rest) := by
    have hinner := exprRun_of_flat hflat hright (hrest.exprRun right) (some left)
    simp [exprRun, endsExpr, hleft, TokenKind.opens, hinner, consRun]
  rw [expr, hrun]

theorem atDeclEnd_of_endsDecl {ts : List Token} (h : EndsDecl ts) : atDeclEnd ts = true := by
  cases ts with
  | nil => rfl
  | cons t ts => simp [atDeclEnd, (h t rfl).1]

/-- `static var name: type = value` -/
theorem opening_static {s v name c equal : Token} {ts us rest : List Token} {t : TypeRef}
    {e : Expr} (hs : s.bare = Token.ofKeyword "static") (hspace : s.trailing.isEmpty = false)
    (hv : v.bare = Token.ofKeyword "var") (hname : name.kind = .identifier)
    (hcolon : c.kind = .colon) (htype : type ts = .ok (t, equal :: us))
    (hequal : equal.kind = .equal) (hvalue : expr us = .ok (e, rest)) (hrest : EndsDecl rest) :
    opening (s :: v :: name :: c :: ts) =
      .ok (.leaf (.binding ⟨⟨[], [⟨s, none⟩]⟩, v, name, some ⟨c, t⟩, some ⟨equal, e⟩, none⟩),
        rest) := by
  obtain ⟨hskind, hstext⟩ : s.kind = .keyword ∧ s.text = "static" := by
    simpa [Token.bare, Token.plain, Token.ofKeyword] using hs
  obtain ⟨hvkind, hvtext⟩ : v.kind = .keyword ∧ v.text = "var" := by
    simpa [Token.bare, Token.plain, Token.ofKeyword] using hv
  have hattributes : attributes (s :: v :: name :: c :: ts) =
      .ok ([], s :: v :: name :: c :: ts) := by
    rw [attributes, if_neg (by simp [hskind])]
  have hmodifiers : modifiers (s :: v :: name :: c :: ts) =
      .ok ([⟨s, none⟩], v :: name :: c :: ts) := by
    have hstop : modifiers (v :: name :: c :: ts) = .ok ([], v :: name :: c :: ts) := by
      have hnot : ¬isModifier v (name :: c :: ts).head? = true := by
        simp [isModifier, hvtext, modifierWords, Token.isKeyword]
      rw [modifiers, if_neg hnot]
    refine modifiers_cons ?_ ?_ hstop
    · simp [isModifier, hskind, hstext, hvkind, modifierWords]
    · simp [argumentsOf, hspace]
  have hstart : startOf v (name :: c :: ts).head? = .binding := by
    simp [startOf, hvkind, hvtext]
  have hbinding : bindingDecl ⟨[], [⟨s, none⟩]⟩ v (name :: c :: ts) =
      .ok (⟨⟨[], [⟨s, none⟩]⟩, v, name, some ⟨c, t⟩, some ⟨equal, e⟩, none⟩, rest) := by
    have hnobrace : groupAt .leftBrace rest = .ok (none, rest) := by
      refine groupAt_of_head fun t ht hkind ↦ ?_
      obtain ⟨-, hkw | hbrace⟩ := hrest t ht <;> simp_all
    refine bind_eq_ok.2 ⟨(name, c :: ts), by rw [expect, if_pos hname], ?_⟩
    refine bind_eq_ok.2 ⟨(some ⟨c, t⟩, equal :: us), ?_, ?_⟩
    · rw [typeClause, if_pos hcolon]
      exact bind_eq_ok.2 ⟨_, htype, rfl⟩
    refine bind_eq_ok.2 ⟨(some ⟨equal, e⟩, rest), ?_, ?_⟩
    · rw [initializer, if_pos hequal]
      exact bind_eq_ok.2 ⟨_, hvalue, rfl⟩
    refine bind_eq_ok.2 ⟨(none, rest), hnobrace, ?_⟩
    dsimp only
    rw [if_pos (atDeclEnd_of_endsDecl hrest)]
    rfl
  exact opening_eq_ok.2 ⟨⟨[], [⟨s, none⟩]⟩, _, preamble_eq_ok.2 ⟨_, hattributes, hmodifiers⟩,
    .binding hstart hbinding⟩

/-! ### Heads of extensions -/

/-- `extension Name: Conformance` before a member block -/
theorem opening_extension {k name c conformance left : Token} {ts : List Token}
    (hk : k.bare = Token.ofKeyword "extension") (hname : name.kind = .identifier)
    (hcolon : c.kind = .colon) (hconformance : conformance.kind = .identifier)
    (hleft : left.kind = .leftBrace) :
    opening (k :: name :: c :: conformance :: left :: ts) =
      .ok (.group (.extension ⟨⟨[], []⟩, k, .identifier name,
        some ⟨c, [⟨.identifier conformance, none⟩]⟩, none⟩), left :: ts) := by
  obtain ⟨hkind, htext⟩ : k.kind = .keyword ∧ k.text = "extension" := by
    simpa [Token.bare, Token.plain, Token.ofKeyword] using hk
  have hattributes : attributes (k :: name :: c :: conformance :: left :: ts) =
      .ok ([], k :: name :: c :: conformance :: left :: ts) := by
    rw [attributes, if_neg (by simp [hkind])]
  have hmodifiers : modifiers (k :: name :: c :: conformance :: left :: ts) =
      .ok ([], k :: name :: c :: conformance :: left :: ts) := by
    rw [modifiers, if_neg (by simp [isModifier, htext, modifierWords, Token.isKeyword])]
  have hstart : startOf k (name :: c :: conformance :: left :: ts).head? = .extension := by
    simp [startOf, hkind, htext]
  have hcomma : takeKind .comma (left :: ts) = (none, left :: ts) := by
    rw [takeKind, if_neg (by simp [hleft])]
  have htype : type (conformance :: left :: ts) = .ok (.identifier conformance, left :: ts) :=
    type_name hconformance (by simp [endsType, hleft])
  have htypes : inheritedTypes (conformance :: left :: ts) =
      .ok ([⟨.identifier conformance, none⟩], left :: ts) := by
    rw [inheritedTypes_single htype (by rw [hcomma]; rfl), hcomma]
  have hclause : inheritance (c :: conformance :: left :: ts) =
      .ok (some ⟨c, [⟨.identifier conformance, none⟩]⟩, left :: ts) := by
    rw [inheritance, if_pos hcolon]
    exact bind_eq_ok.2 ⟨_, htypes, rfl⟩
  have hwhere : whereClause (left :: ts) = (none, left :: ts) := by
    rw [whereClause, if_neg (by simp [Token.isKeyword, hleft])]
  have hhead : extensionHead ⟨[], []⟩ k (name :: c :: conformance :: left :: ts) =
      .ok (⟨⟨[], []⟩, k, .identifier name, some ⟨c, [⟨.identifier conformance, none⟩]⟩, none⟩,
        left :: ts) := by
    refine bind_eq_ok.2 ⟨_, type_name hname (by simp [endsType, hcolon]), ?_⟩
    refine bind_eq_ok.2 ⟨_, hclause, ?_⟩
    dsimp only
    rw [hwhere]
    rfl
  exact opening_eq_ok.2 ⟨⟨[], []⟩, _, preamble_eq_ok.2 ⟨_, hattributes, hmodifiers⟩,
    .extension hstart hhead⟩

end EnumForge.Grammar
