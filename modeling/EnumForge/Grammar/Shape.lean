import EnumForge.Tree.Expr
import EnumForge.Tree.TypeRef

/-!
# Shapes of types and expressions

The tokens of a type or an expression, once it is known how far they reach, are told apart by
their shape.  Dictionaries are looked into; whatever has no shape of its own stays raw.
-/

namespace EnumForge.Grammar

/-- Splits at the first token of the given kind outside all groups: the tokens before it, the
token, and the tokens after it. -/
def splitAtKind? (kind : TokenKind) (depth : Int) :
    List Token → Option (List Token × Token × List Token)
  | [] => none
  | t :: ts =>
    if t.kind = kind ∧ depth = 0 then some ([], t, ts)
    else
      let depth := if t.kind.opens then depth + 1 else if t.kind.closes then depth - 1 else depth
      (splitAtKind? kind depth ts).map fun (before, u, after) ↦ (t :: before, u, after)

/-- The brackets around the tokens, if the first one opens a bracket that the last one closes,
and the tokens between them. -/
def brackets? : List Token → Option (Token × List Token × Token)
  | [] => none
  | left :: ts =>
    if left.kind = .leftSquare then
      match splitAtKind? .rightSquare 0 ts with
      | some (inner, right, []) => some (left, inner, right)
      | _ => none
    else none

/-- Key, colon and value of a dictionary entry, neither side empty. -/
def keyValue? (ts : List Token) : Option (List Token × Token × List Token) :=
  match splitAtKind? .colon 0 ts with
  | some (k :: key, colon, v :: value) => some (k :: key, colon, v :: value)
  | _ => none

/-- The tokens up to the first comma outside all groups, the comma, and the tokens after it. -/
def splitAtComma (ts : List Token) : List Token × Option Token × List Token :=
  match splitAtKind? .comma 0 ts with
  | some (before, comma, after) => (before, some comma, after)
  | none => (ts, none, [])

/-- A point and the name after it. -/
def implicitMember? : List Token → Option (Token × Token)
  | [period, name] =>
    if period.kind = .period ∧ name.kind = .identifier then some (period, name) else none
  | _ => none

/-- The only token, if it has the given kind. -/
def only? (kind : TokenKind) : List Token → Option Token
  | [t] => if t.kind = kind then some t else none
  | _ => none

/-! ### Nothing is lost -/

theorem append_of_splitAtKind? {kind : TokenKind} {depth : Int} {ts before after : List Token}
    {t : Token} (h : splitAtKind? kind depth ts = some (before, t, after)) :
    before ++ t :: after = ts := by
  induction ts generalizing depth before with
  | nil => simp [splitAtKind?] at h
  | cons u ts ih =>
    unfold splitAtKind? at h
    split at h
    · simp only [Option.some.injEq, Prod.mk.injEq] at h
      obtain ⟨rfl, rfl, rfl⟩ := h
      rfl
    · obtain ⟨⟨b, v, a⟩, hs, he⟩ := Option.map_eq_some_iff.1 h
      simp only [Prod.mk.injEq] at he
      obtain ⟨rfl, rfl, rfl⟩ := he
      simp [ih hs]

theorem append_of_brackets? {ts inner : List Token} {left right : Token}
    (h : brackets? ts = some (left, inner, right)) : left :: (inner ++ [right]) = ts := by
  unfold brackets? at h
  split at h
  · simp at h
  · split at h
    · split at h
      next hs =>
        simp only [Option.some.injEq, Prod.mk.injEq] at h
        obtain ⟨rfl, rfl, rfl⟩ := h
        simp [append_of_splitAtKind? hs]
      next => simp at h
    · simp at h

theorem append_of_keyValue? {ts key value : List Token} {colon : Token}
    (h : keyValue? ts = some (key, colon, value)) : key ++ colon :: value = ts := by
  unfold keyValue? at h
  split at h
  next hs =>
    simp only [Option.some.injEq, Prod.mk.injEq] at h
    obtain ⟨rfl, rfl, rfl⟩ := h
    exact append_of_splitAtKind? hs
  next => simp at h

theorem splitAtComma_append (ts : List Token) :
    (splitAtComma ts).1 ++ (Node.tokens (splitAtComma ts).2.1 ++ (splitAtComma ts).2.2) = ts := by
  unfold splitAtComma
  split
  next hs => simpa [Node.tokens] using append_of_splitAtKind? hs
  next => simp [Node.tokens]

theorem only?_eq_some {kind : TokenKind} {ts : List Token} {t : Token}
    (h : only? kind ts = some t) : ts = [t] := by
  unfold only? at h
  split at h
  · split at h
    · simpa using h
    · simp at h
  · simp at h

theorem implicitMember?_eq_some {ts : List Token} {period name : Token}
    (h : implicitMember? ts = some (period, name)) : ts = [period, name] := by
  unfold implicitMember? at h
  split at h
  · split at h
    · simpa using h
    · simp at h
  · simp at h

/-! ### Types -/

/-- The type that the tokens spell. -/
def typeOfTokens (ts : List Token) : TypeRef :=
  match only? .identifier ts with
  | some name => .identifier name
  | none =>
    match _brackets : brackets? ts with
    | none => .raw ts
    | some (left, inner, right) =>
      match _pair : keyValue? inner with
      | none => .raw ts
      | some (key, colon, value) =>
        .dictionary left (typeOfTokens key) colon (typeOfTokens value) right
termination_by ts.length
decreasing_by
  all_goals
    have hb := congrArg List.length (append_of_brackets? _brackets)
    have he := congrArg List.length (append_of_keyValue? _pair)
    simp at hb he
    omega

theorem tokens_typeOfTokens (ts : List Token) : Node.tokens (typeOfTokens ts) = ts := by
  fun_induction typeOfTokens ts with
  | case1 ts name h =>
    simp [only?_eq_some h, Node.tokens, TypeRef.tokens]
  | case2 => rfl
  | case3 => rfl
  | case4 ts _ left inner right hb key colon value he ihk ihv =>
    rw [← append_of_brackets? hb, ← append_of_keyValue? he]
    simp only [Node.tokens] at ihk ihv
    simp [Node.tokens, TypeRef.tokens, ihk, ihv]

/-! ### Expressions -/

mutual

/-- The expression that the tokens spell. -/
def exprOfTokens (ts : List Token) : Expr :=
  match only? .stringLiteral ts with
  | some literal => .string literal
  | none =>
    match implicitMember? ts with
    | some (period, name) => .implicitMember period name
    | none =>
      match _brackets : brackets? ts with
      | none => .raw ts
      | some (left, inner, right) =>
        match only? .colon inner with
        | some colon => .emptyDictionary left colon right
        | none =>
          match elementsOfTokens inner with
          | some (e :: es) => .dictionary left (e :: es) right
          | _ => .raw ts
termination_by ts.length
decreasing_by
  have hb := congrArg List.length (append_of_brackets? _brackets)
  simp at hb
  omega

/-- The entries of a dictionary literal; none if one of them is no entry. -/
def elementsOfTokens (ts : List Token) : Option (List DictionaryElement) :=
  match ts with
  | [] => some []
  | t :: rest =>
    match _pair : keyValue? (splitAtComma (t :: rest)).1 with
    | none => none
    | some (key, colon, value) =>
      match elementsOfTokens (splitAtComma (t :: rest)).2.2 with
      | none => none
      | some es =>
        some (⟨exprOfTokens key, colon, exprOfTokens value, (splitAtComma (t :: rest)).2.1⟩ :: es)
termination_by ts.length
decreasing_by
  all_goals
    have hc := congrArg List.length (splitAtComma_append (t :: rest))
    have he := congrArg List.length (append_of_keyValue? _pair)
    simp at hc he
    simp
    omega

end

theorem tokens_of_ofTokens (ts : List Token) :
    (exprOfTokens ts).tokens = ts ∧
      ∀ es, elementsOfTokens ts = some es → DictionaryElement.listTokens es = ts := by
  induction hn : ts.length using Nat.strongRecOn generalizing ts with
  | ind n ih =>
    subst hn
    constructor
    · rw [exprOfTokens]
      split
      next h => simp [only?_eq_some h, Expr.tokens]
      next =>
        split
        next h => simp [implicitMember?_eq_some h, Expr.tokens]
        next =>
          split
          next => rfl
          next left inner right hb =>
            have hb := append_of_brackets? hb
            have hlen := congrArg List.length hb
            simp only [List.length_cons, List.length_append, List.length_nil] at hlen
            have hlt : inner.length < ts.length := by omega
            split
            next h => rw [← hb, only?_eq_some h]; rfl
            next =>
              split
              next e es he =>
                rw [Expr.tokens, (ih _ hlt inner rfl).2 _ he, hb]
              next => rfl
    · intro es h
      cases ts with
      | nil =>
        simp only [elementsOfTokens, Option.some.injEq] at h
        subst h
        rfl
      | cons t rest =>
        rw [elementsOfTokens] at h
        split at h
        · simp at h
        next key colon value he =>
          split at h
          · simp at h
          next es' hes =>
            simp only [Option.some.injEq] at h
            subst h
            have hc := splitAtComma_append (t :: rest)
            have he := append_of_keyValue? he
            have hlen := congrArg List.length hc
            have helen := congrArg List.length he
            simp at hlen helen
            have hk := (ih _ (by simp; omega) key rfl).1
            have hv := (ih _ (by simp; omega) value rfl).1
            have hr := (ih _ (by simp; omega) (splitAtComma (t :: rest)).2.2 rfl).2 _ hes
            rw [DictionaryElement.listTokens, DictionaryElement.tokens, hk, hv, hr]
            rw [← he] at hc
            simpa using hc

theorem tokens_exprOfTokens (ts : List Token) : Node.tokens (exprOfTokens ts) = ts :=
  (tokens_of_ofTokens ts).1

end EnumForge.Grammar
