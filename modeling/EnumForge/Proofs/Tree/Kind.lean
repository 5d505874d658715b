import EnumForge.Proofs.Token.Place
import EnumForge.Proofs.Tree.Edit

/-!
# The kinds of nodes

A node is read through the list of its tokens and changed through a walk over them, and for each
kind of node both are written down on their own.  Here they are shown to agree for all kinds,
options and lists of nodes at any depth included: what is done to the tokens on the walk is what
happens to the list.  So the edits of the trivia around a node change the first or the last token of
the list, leave the text and the place between them as they are, and can be undone.
-/

namespace EnumForge

namespace Node

variable {α : Type} [Node α]

/-! ### Edits of a counted token -/

/-- Counts the tokens that it meets and changes the `i`-th one. -/
def editAt (i : Nat) (f : Token → Token) (t : Token) : StateM Nat Token := do
  let n ← get
  set (n + 1)
  return if n = i then f t else t

theorem run_mapM_editAt (i : Nat) (f : Token → Token) (n : Nat) (ts : List Token) :
    (ts.mapM (editAt i f)).run n =
      (if n ≤ i then ts.modify (i - n) f else ts, n + ts.length) := by
  induction ts generalizing n with
  | nil =>
    have hnil : (([] : List Token).mapM (editAt i f)).run n = ([], n) := rfl
    rw [hnil, List.modify_nil, ite_self]
    rfl
  | cons t ts ih =>
    have hedit : (editAt i f t).run n = (if n = i then f t else t, n + 1) := rfl
    have hcons : ((t :: ts).mapM (editAt i f)).run n =
        ((if n = i then f t else t) :: ((ts.mapM (editAt i f)).run (n + 1)).1,
          ((ts.mapM (editAt i f)).run (n + 1)).2) := by
      rw [List.mapM_cons, StateT.run_bind, hedit]
      rfl
    rw [hcons, ih]
    refine Prod.ext ?_ (by simp only [List.length_cons]; omega)
    obtain hlt | rfl | hgt := Nat.lt_trichotomy n i
    · obtain ⟨k, hk⟩ : ∃ k, i - n = k + 1 := ⟨i - n - 1, by omega⟩
      have hnext : i - (n + 1) = k := by omega
      simp only [if_neg (Nat.ne_of_lt hlt), if_pos (Nat.succ_le_of_lt hlt),
        if_pos (Nat.le_of_lt hlt), hk, hnext, List.modify_succ_cons]
    · simp [Nat.not_succ_le_self n]
    · simp only [if_neg (Nat.ne_of_gt hgt), if_neg (Nat.not_le.2 hgt),
        if_neg (Nat.not_le.2 (Nat.lt_succ_of_lt hgt))]

/-- A token that is counted on the walk is the one at that place of the list. -/
theorem HasShape.run_editAt {a : α} (h : HasShape a) (i : Nat) (f : Token → Token) :
    (mapTokensM (editAt i f) a).run 0 = (modifyToken i f a, (tokens a).length) := by
  obtain ⟨fill, hfill⟩ := h
  have hwalk := hfill.walk_fill rfl (editAt i f)
  rw [hfill.fill_tokens] at hwalk
  rw [hwalk, StateT.run_map, run_mapM_editAt, if_pos (Nat.zero_le i), Nat.sub_zero, Nat.zero_add,
    modifyToken, hfill.withTokens_eq (List.length_modify _ _ _)]
  rfl

/-! ### Edits of the trivia around a node -/

/-- An edit of the trivia around a node leaves its text and its place as they are. -/
structure SameInside (a b : α) : Prop where
  trimmed_eq : trimmed b = trimmed a
  span_eq : span b = span a

theorem sameInside_of_tokens {a b : α}
    (htrimmed : trimmedTokens (tokens b) = trimmedTokens (tokens a))
    (hspans : (tokens b).map Token.span = (tokens a).map Token.span) : SameInside a b := by
  refine ⟨htrimmed, ?_⟩
  have hfilter (ts : List Token) : ts.filterMap Token.span = (ts.map Token.span).filterMap id := by
    rw [List.filterMap_map]
    rfl
  rw [span, span, hfilter, hspans, ← hfilter]

namespace HasShape

variable {a : α}

theorem tokens_setLeading_cons (h : HasShape a) (trivia : Trivia) {t : Token} {ts : List Token}
    (htokens : tokens a = t :: ts) : tokens (setLeading trivia a) = t.withLeading trivia :: ts := by
  rw [setLeading, h.tokens_modifyToken, htokens]
  rfl

theorem leading_setLeading (h : HasShape a) (hne : tokens a ≠ []) (trivia : Trivia) :
    leading (setLeading trivia a) = trivia := by
  obtain ⟨t, ts, hts⟩ := List.exists_cons_of_ne_nil hne
  rw [leading, h.tokens_setLeading_cons trivia hts]
  rfl

theorem sameInside_setLeading (h : HasShape a) (trivia : Trivia) :
    SameInside a (setLeading trivia a) := by
  cases hts : tokens a with
  | nil =>
    have htokens : tokens (setLeading trivia a) = tokens a := by
      rw [setLeading, h.tokens_modifyToken, hts]
      rfl
    exact sameInside_of_tokens (by rw [htokens]) (by rw [htokens])
  | cons t ts =>
    refine sameInside_of_tokens ?_ ?_
    · rw [h.tokens_setLeading_cons trivia hts, hts, trimmedTokens_withLeading]
    · rw [h.tokens_setLeading_cons trivia hts, hts]
      rfl

theorem sameInside_setTrailing (h : HasShape a) (trivia : Trivia) :
    SameInside a (setTrailing trivia a) := by
  obtain hnil | ⟨ts, t, hts⟩ := List.eq_nil_or_concat' (tokens a)
  · have htokens : tokens (setTrailing trivia a) = tokens a := by
      rw [h.tokens_setTrailing, hnil]
      rfl
    exact sameInside_of_tokens (by rw [htokens]) (by rw [htokens])
  · refine sameInside_of_tokens ?_ ?_
    · rw [h.tokens_setTrailing_concat trivia hts, hts, trimmedTokens_withTrailing]
    · rw [h.tokens_setTrailing_concat trivia hts, hts, List.map_append, List.map_append]
      rfl

theorem trimmed_detach (h : HasShape a) : trimmed (detach a) = trimmed a := by
  rw [trimmed, trimmed, detach, h.tokens_mapTokens]
  induction tokens a with
  | nil => rfl
  | cons t ts ih =>
    cases ts with
    | nil => rfl
    | cons u ts => exact congrArg (t.text ++ t.trailing.text ++ u.leading.text ++ ·) ih

theorem span_detach (h : HasShape a) : span (detach a) = Option.none := by
  have hspans : (tokens (detach a)).filterMap Token.span = [] := by
    rw [detach, h.tokens_mapTokens, List.filterMap_map, List.filterMap_eq_nil_iff]
    exact fun _ _ ↦ rfl
  simp only [span, hspans]

end HasShape

/-! ### Edits that undo each other -/

section Undo

variable (hshape : ∀ b : α, HasShape b) (a : α)

include hshape

theorem setLeading_setLeading_leading (trivia : Trivia) :
    setLeading (leading a) (setLeading trivia a) = a := by
  refine (hshape _).ext (hshape _) (g := Token.bare) ?_ ?_
  · exact (((hshape a).like_setLeading trivia).trans ((hshape _).like_setLeading _)).symm
  · cases hts : tokens a with
    | nil => simp [setLeading, (hshape _).tokens_modifyToken, hts]
    | cons t ts =>
      have hedited := (hshape a).tokens_setLeading_cons trivia hts
      rw [(hshape _).tokens_setLeading_cons _ hedited, leading, hts]
      rfl

theorem setTrailing_setTrailing_trailing (trivia : Trivia) :
    setTrailing (trailing a) (setTrailing trivia a) = a := by
  refine (hshape _).ext (hshape _) (g := Token.bare) ?_ ?_
  · exact (((hshape a).like_setTrailing trivia).trans ((hshape _).like_setTrailing _)).symm
  · obtain hnil | ⟨ts, t, hts⟩ := List.eq_nil_or_concat' (tokens a)
    · simp [(hshape _).tokens_setTrailing, hnil]
    · have hedited := (hshape a).tokens_setTrailing_concat trivia hts
      rw [(hshape _).tokens_setTrailing_concat _ hedited, trailing, hts, List.getLast?_concat]
      rfl

/-- The first and the last token can be one and the same. -/
theorem setLeading_setTrailing_comm (front back : Trivia) :
    setLeading front (setTrailing back a) = setTrailing back (setLeading front a) := by
  refine (hshape _).ext (hshape _) (g := Token.bare) ?_ ?_
  · have hleft := ((hshape a).like_setTrailing back).trans ((hshape _).like_setLeading front)
    have hright := ((hshape a).like_setLeading front).trans ((hshape _).like_setTrailing back)
    exact hleft.symm.trans hright
  · simp only [setLeading, setTrailing, (hshape _).tokens_modifyToken, List.length_modify]
    rcases tokens a with - | ⟨t, - | ⟨u, ts⟩⟩ <;> rfl

end Undo

/-! ### What holds of every node -/

/-- A node with tokens: its text between the trivia around it, and the edits of that trivia. -/
structure Framed (a : α) : Prop where
  source_eq : source a = (leading a).text ++ trimmed a ++ (trailing a).text
  tokens_setLeading (trivia : Trivia) : ∃ first rest, tokens a = first :: rest ∧
    tokens (setLeading trivia a) = first.withLeading trivia :: rest
  tokens_setTrailing (trivia : Trivia) : ∃ front last, tokens a = front ++ [last] ∧
    tokens (setTrailing trivia a) = front ++ [last.withTrailing trivia]
  leading_setLeading (trivia : Trivia) : leading (setLeading trivia a) = trivia
  trailing_setTrailing (trivia : Trivia) : trailing (setTrailing trivia a) = trivia
  inside_setLeading (trivia : Trivia) : SameInside a (setLeading trivia a)
  inside_setTrailing (trivia : Trivia) : SameInside a (setTrailing trivia a)
  /-- Nothing but the trivia was changed: set back, the node is as it was. -/
  undo_setLeading (trivia : Trivia) : setLeading (leading a) (setLeading trivia a) = a
  undo_setTrailing (trivia : Trivia) : setTrailing (trailing a) (setTrailing trivia a) = a
  comm (front back : Trivia) :
    setLeading front (setTrailing back a) = setTrailing back (setLeading front a)

/-- A node without tokens, which no edit changes. -/
structure Blank (a : α) : Prop where
  source_eq : source a = ""
  trimmed_eq : trimmed a = ""
  span_eq : span a = none
  leading_eq : leading a = .empty
  trailing_eq : trailing a = .empty
  mapTokens_eq (f : Token → Token) : mapTokens f a = a
  setLeading_eq (trivia : Trivia) : setLeading trivia a = a
  setTrailing_eq (trivia : Trivia) : setTrailing trivia a = a
  detach_eq : detach a = a

/-- The walk that changes tokens and the list of the tokens agree, and the edits with them. -/
structure WalksAlike (a : α) : Prop where
  tokens_mapTokens (f : Token → Token) : tokens (mapTokens f a) = (tokens a).map f
  /-- Also where `f` counts, stops or keeps a state on the way. -/
  tokens_mapTokensM {m : Type → Type} [Monad m] [LawfulMonad m] (f : Token → m Token) :
    tokens <$> mapTokensM f a = (tokens a).mapM f
  /-- A token that is counted on the walk is the one at that place of the list. -/
  run_editAt (i : Nat) (f : Token → Token) :
    (mapTokensM (editAt i f) a).run 0 = (modifyToken i f a, (tokens a).length)
  source_detach : source (detach a) = source a
  trimmed_detach : trimmed (detach a) = trimmed a
  leading_detach : leading (detach a) = leading a
  trailing_detach : trailing (detach a) = trailing a
  span_detach : span (detach a) = none
  framed : tokens a ≠ [] → Framed a
  blank : tokens a = [] → Blank a

theorem framed_of_hasShape (hshape : ∀ b : α, HasShape b) {a : α} (hne : tokens a ≠ []) :
    Framed a where
  source_eq := source_eq_trimmed a
  tokens_setLeading trivia := by
    obtain ⟨t, ts, hts⟩ := List.exists_cons_of_ne_nil hne
    exact ⟨t, ts, hts, (hshape a).tokens_setLeading_cons trivia hts⟩
  tokens_setTrailing trivia := by
    obtain ⟨ts, t, hts⟩ := (List.eq_nil_or_concat' (tokens a)).resolve_left hne
    exact ⟨ts, t, hts, (hshape a).tokens_setTrailing_concat trivia hts⟩
  leading_setLeading := (hshape a).leading_setLeading hne
  trailing_setTrailing := (hshape a).trailing_setTrailing hne
  inside_setLeading := (hshape a).sameInside_setLeading
  inside_setTrailing := (hshape a).sameInside_setTrailing
  undo_setLeading := setLeading_setLeading_leading hshape a
  undo_setTrailing := setTrailing_setTrailing_trailing hshape a
  comm := setLeading_setTrailing_comm hshape a

theorem blank_of_hasShape {a : α} (h : HasShape a) (hnil : tokens a = []) : Blank a := by
  have hedit (i : Nat) (f : Token → Token) : modifyToken i f a = a :=
    h.modifyToken_of_eq fun t ht ↦ by simp [hnil] at ht
  have hmap (f : Token → Token) : mapTokens f a = a := by
    rw [h.mapTokens_eq, hnil, List.map_nil, ← hnil, h.withTokens_tokens]
  constructor
  · simp [source, hnil, String.join]
  · simp [trimmed, hnil, trimmedTokens]
  · simp [span, hnil]
  · simp [leading, hnil]
  · simp [trailing, hnil]
  · exact hmap
  · exact fun trivia ↦ hedit 0 _
  · exact fun trivia ↦ hedit _ _
  · exact hmap Token.detached

theorem walksAlike_of_hasShape (hshape : ∀ b : α, HasShape b) (a : α) : WalksAlike a where
  tokens_mapTokens := (hshape a).tokens_mapTokens
  tokens_mapTokensM := (hshape a).tokens_mapTokensM
  run_editAt := (hshape a).run_editAt
  source_detach := (hshape a).source_detach
  trimmed_detach := (hshape a).trimmed_detach
  leading_detach := (hshape a).leading_detach
  trailing_detach := (hshape a).trailing_detach
  span_detach := (hshape a).span_detach
  framed := framed_of_hasShape hshape
  blank := blank_of_hasShape (hshape a)

end Node

/-! ### All kinds -/

/-- The kinds of nodes; raw tokens are a list of tokens. -/
inductive NodeKind where
  | token
  | attr
  | modifier
  | preamble
  | inheritedType
  | inheritance
  | typeClause
  | initializer
  | caseElement
  | caseDecl
  | bindingDecl
  | rawDecl
  | nominalHead
  | nominalDecl
  | extensionHead
  | extensionDecl
  | block
  | member
  | decl
  | file
  | type
  | expr
  | entry
  | option (k : NodeKind)
  | list (k : NodeKind)

namespace NodeKind

/-- The nodes of a kind. -/
def Carrier : NodeKind → Type
  | token => Token
  | attr => Attribute
  | modifier => Modifier
  | preamble => Preamble
  | inheritedType => InheritedType
  | inheritance => InheritanceClause
  | typeClause => TypeClause
  | initializer => Initializer
  | caseElement => CaseElement
  | caseDecl => CaseDecl
  | bindingDecl => BindingDecl
  | rawDecl => RawDecl
  | nominalHead => NominalHead
  | nominalDecl => NominalDecl
  | extensionHead => ExtensionHead
  | extensionDecl => ExtensionDecl
  | block => MemberBlock
  | member => Member
  | decl => Decl
  | file => SourceFile
  | type => TypeRef
  | expr => Expr
  | entry => DictionaryElement
  | option k => Option k.Carrier
  | list k => List k.Carrier

instance node : (k : NodeKind) → Node k.Carrier
  | token => inferInstanceAs (Node Token)
  | attr => inferInstanceAs (Node Attribute)
  | modifier => inferInstanceAs (Node Modifier)
  | preamble => inferInstanceAs (Node Preamble)
  | inheritedType => inferInstanceAs (Node InheritedType)
  | inheritance => inferInstanceAs (Node InheritanceClause)
  | typeClause => inferInstanceAs (Node TypeClause)
  | initializer => inferInstanceAs (Node Initializer)
  | caseElement => inferInstanceAs (Node CaseElement)
  | caseDecl => inferInstanceAs (Node CaseDecl)
  | bindingDecl => inferInstanceAs (Node BindingDecl)
  | rawDecl => inferInstanceAs (Node RawDecl)
  | nominalHead => inferInstanceAs (Node NominalHead)
  | nominalDecl => inferInstanceAs (Node NominalDecl)
  | extensionHead => inferInstanceAs (Node ExtensionHead)
  | extensionDecl => inferInstanceAs (Node ExtensionDecl)
  | block => inferInstanceAs (Node MemberBlock)
  | member => inferInstanceAs (Node Member)
  | decl => inferInstanceAs (Node Decl)
  | file => inferInstanceAs (Node SourceFile)
  | type => inferInstanceAs (Node TypeRef)
  | expr => inferInstanceAs (Node Expr)
  | entry => inferInstanceAs (Node DictionaryElement)
  | option k => haveI := k.node; inferInstanceAs (Node (Option k.Carrier))
  | list k => haveI := k.node; inferInstanceAs (Node (List k.Carrier))

theorem hasShape (k : NodeKind) (n : k.Carrier) : Node.HasShape n := by
  induction k with
  | token => exact Node.HasShape.token n
  | attr => exact Attribute.hasShape n
  | modifier => exact Modifier.hasShape n
  | preamble => exact Preamble.hasShape n
  | inheritedType => exact InheritedType.hasShape n
  | inheritance => exact InheritanceClause.hasShape n
  | typeClause => exact TypeClause.hasShape n
  | initializer => exact Initializer.hasShape n
  | caseElement => exact CaseElement.hasShape n
  | caseDecl => exact CaseDecl.hasShape n
  | bindingDecl => exact BindingDecl.hasShape n
  | rawDecl => exact RawDecl.hasShape n
  | nominalHead => exact NominalHead.hasShape n
  | nominalDecl => exact NominalDecl.hasShape n
  | extensionHead => exact ExtensionHead.hasShape n
  | extensionDecl => exact ExtensionDecl.hasShape n
  | block => exact MemberBlock.hasShape n
  | member => exact Member.hasShape n
  | decl => exact Decl.hasShape n
  | file => exact SourceFile.hasShape n
  | type => exact TypeRef.hasShape n
  | expr => exact Expr.hasShape n
  | entry => exact DictionaryElement.hasShape n
  | option k ih => exact Node.HasShape.option fun a _ ↦ ih a
  | list k ih => exact Node.HasShape.list fun a _ ↦ ih a

/-- For a node of any kind, the walk that changes tokens and the list of its tokens agree. -/
theorem walksAlike (k : NodeKind) (n : k.Carrier) : Node.WalksAlike n :=
  Node.walksAlike_of_hasShape k.hasShape n

/-- `private(set)`, read from a line of its own. -/
def privateSetter : (NodeKind.option (.list .modifier)).Carrier :=
  some [⟨{ kind := .keyword, text := "private", leading := .newlines 1, span := some ⟨1, 8⟩ },
    some [{ kind := .leftParen, text := "(", span := some ⟨8, 9⟩ },
      { kind := .identifier, text := "set", span := some ⟨9, 12⟩ },
      { kind := .rightParen, text := ")", trailing := .spaces 1, span := some ⟨12, 13⟩ }]⟩]

theorem walksAlike_privateSetter :
    Node.tokens privateSetter ≠ [] ∧ Node.Framed privateSetter ∧
    Node.source (Node.setTrailing .empty (Node.setLeading (.spaces 2) privateSetter)) =
      "  private(set)" ∧
    Node.tokens (none : (NodeKind.option (.list .modifier)).Carrier) = [] ∧
    Node.Blank (none : (NodeKind.option (.list .modifier)).Carrier) :=
  ⟨by decide, (walksAlike (.option (.list .modifier)) privateSetter).framed (by decide),
    by decide, rfl, (walksAlike (.option (.list .modifier)) none).blank rfl⟩

end NodeKind

end EnumForge
