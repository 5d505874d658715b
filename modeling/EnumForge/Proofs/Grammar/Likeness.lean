import EnumForge.Grammar.Shape
import EnumForge.Proofs.Tree.Walk

/-!
# Nodes that look alike

Two nodes are alike if they differ in nothing but the trivia and the places of their tokens.  The
shape of a type or an expression is told from the kinds of its tokens, so token runs that are alike
have shapes that are alike.
-/

namespace EnumForge

namespace Node

variable {α : Type} [Node α]

def Like (a b : α) : Prop := mapTokens Token.bare a = mapTokens Token.bare b

theorem Like.refl (a : α) : Like a a := rfl

theorem Like.symm {a b : α} (h : Like a b) : Like b a := Eq.symm h

theorem Like.trans {a b c : α} (hab : Like a b) (hbc : Like b c) : Like a c := Eq.trans hab hbc

theorem Like.some {a b : α} (h : Like a b) : Like (some a) (some b) := congrArg Option.some h

theorem Like.cons {a b : α} {as bs : List α} (h : Like a b) (hs : Like as bs) :
    Like (a :: as) (b :: bs) := by
  unfold Like at *
  rw [mapTokens_list] at *
  rw [mapTokens_list] at *
  rw [List.map_cons, List.map_cons, h, hs]

theorem Like.pair {β : Type} [Node β] {a a' : α} {b b' : β} (ha : Like a a') (hb : Like b b') :
    Like (a, b) (a', b') := by
  have hwalk (a : α) (b : β) :
      mapTokens Token.bare (a, b) = (mapTokens Token.bare a, mapTokens Token.bare b) := rfl
  rw [Like, hwalk, hwalk, ha, hb]

/-- A structure is like another if the tuples of their fields are alike. -/
theorem Like.image {β : Type} [Node β] (mk : β → α)
    (hmk : ∀ b, mapTokens Token.bare (mk b) = mk (mapTokens Token.bare b)) {b b' : β}
    (h : Like b b') : Like (mk b) (mk b') := by
  rw [Like, hmk, hmk, h]

theorem like_tokens {ts us : List Token} (h : us.map Token.bare = ts.map Token.bare) :
    Like ts us := by
  have hmap (vs : List Token) : mapTokens Token.bare vs = vs.map Token.bare :=
    mapTokens_list Token.bare vs
  rw [Like, hmap, hmap, h]

theorem like_list_iff {as bs : List α} :
    Like as bs ↔ as.map (mapTokens Token.bare) = bs.map (mapTokens Token.bare) := by
  rw [Like, mapTokens_list, mapTokens_list]

theorem like_map {β : Type} {f g : β → α} {bs : List β} (h : ∀ b ∈ bs, Like (f b) (g b)) :
    Like (bs.map f) (bs.map g) := by
  rw [like_list_iff, List.map_map, List.map_map]
  exact List.map_congr_left h

theorem like_modify {f : α → α} (h : ∀ a, Like a (f a)) (i : Nat) (as : List α) :
    Like as (as.modify i f) := by
  rw [like_list_iff]
  refine List.ext_getElem? fun j ↦ ?_
  rw [List.getElem?_map, List.getElem?_map, List.getElem?_modify]
  cases as[j]? with
  | none => rfl
  | some a =>
    simp only [Option.map_eq_map, Option.map_some, Option.some.injEq]
    split
    · exact h a
    · rfl

end Node

theorem MemberBlock.mapTokens_mk (g : Token → Token) (left right : Token) (ms : List Member) :
    Node.mapTokens g (MemberBlock.mk left ms right) =
      ⟨g left, ms.map (Node.mapTokens g), g right⟩ := by
  have hlist := congrArg Id.run (Member.mapTokensM_list (m := Id) (fun t ↦ pure (g t)) ms)
  have hmap : Node.mapTokens g ms = ms.map (Node.mapTokens g) := Node.mapTokens_list g ms
  exact congrArg (fun ms' ↦ MemberBlock.mk (g left) ms' (g right)) (hlist.symm.trans hmap)

namespace Grammar

/-! ### Shapes -/

theorem splitAtKind?_map_bare (kind : TokenKind) (depth : Int) (ts : List Token) :
    splitAtKind? kind depth (ts.map Token.bare) =
      (splitAtKind? kind depth ts).map fun (before, t, after) ↦
        (before.map Token.bare, t.bare, after.map Token.bare) := by
  induction ts generalizing depth with
  | nil => rfl
  | cons t ts ih =>
    have hkind : t.bare.kind = t.kind := rfl
    rw [List.map_cons, splitAtKind?, splitAtKind?, hkind]
    split
    · rfl
    · dsimp only
      rw [ih, Option.map_map, Option.map_map]
      rfl

theorem only?_map_bare (kind : TokenKind) (ts : List Token) :
    only? kind (ts.map Token.bare) = (only? kind ts).map Token.bare := by
  match ts with
  | [] => rfl
  | [t] =>
    have hkind : t.bare.kind = t.kind := rfl
    simp only [List.map_cons, List.map_nil, only?, hkind]
    split <;> rfl
  | t :: u :: ts => rfl

theorem brackets?_map_bare (ts : List Token) :
    brackets? (ts.map Token.bare) = (brackets? ts).map fun (left, inner, right) ↦
      (left.bare, inner.map Token.bare, right.bare) := by
  cases ts with
  | nil => rfl
  | cons t ts =>
    have hkind : t.bare.kind = t.kind := rfl
    rw [List.map_cons, brackets?, brackets?, hkind, splitAtKind?_map_bare]
    split
    · rcases splitAtKind? .rightSquare 0 ts with - | ⟨inner, right, - | ⟨u, us⟩⟩ <;> rfl
    · rfl

theorem keyValue?_map_bare (ts : List Token) :
    keyValue? (ts.map Token.bare) = (keyValue? ts).map fun (key, colon, value) ↦
      (key.map Token.bare, colon.bare, value.map Token.bare) := by
  rw [keyValue?, keyValue?, splitAtKind?_map_bare]
  rcases splitAtKind? .colon 0 ts with - | ⟨- | ⟨k, key⟩, colon, - | ⟨v, value⟩⟩ <;> rfl

theorem splitAtComma_map_bare (ts : List Token) :
    splitAtComma (ts.map Token.bare) =
      ((splitAtComma ts).1.map Token.bare, (splitAtComma ts).2.1.map Token.bare,
        (splitAtComma ts).2.2.map Token.bare) := by
  rw [splitAtComma, splitAtComma, splitAtKind?_map_bare]
  rcases splitAtKind? .comma 0 ts with - | ⟨before, comma, after⟩ <;> rfl

theorem implicitMember?_map_bare (ts : List Token) :
    implicitMember? (ts.map Token.bare) =
      (implicitMember? ts).map fun (period, name) ↦ (period.bare, name.bare) := by
  match ts with
  | [] | [_] | _ :: _ :: _ :: _ => rfl
  | [t, u] =>
    have hkind (v : Token) : v.bare.kind = v.kind := rfl
    simp only [List.map_cons, List.map_nil, implicitMember?, hkind]
    split <;> rfl

theorem typeOfTokens_eq (ts : List Token) :
    typeOfTokens ts =
      match only? .identifier ts with
      | some name => .identifier name
      | none =>
        match brackets? ts with
        | none => .raw ts
        | some (left, inner, right) =>
          match keyValue? inner with
          | none => .raw ts
          | some (key, colon, value) =>
            .dictionary left (typeOfTokens key) colon (typeOfTokens value) right := by
  rw [typeOfTokens]
  cases only? .identifier ts with
  | some name => rfl
  | none =>
    dsimp only
    split
    next hb => rw [hb]
    next hb =>
      rw [hb]
      dsimp only
      split
      next hk => rw [hk]
      next hk => rw [hk]

theorem mapTokens_typeOfTokens (ts : List Token) :
    Node.mapTokens Token.bare (typeOfTokens ts) = typeOfTokens (ts.map Token.bare) := by
  have hraw (ts : List Token) :
      Node.mapTokens Token.bare (TypeRef.raw ts) = .raw (ts.map Token.bare) :=
    congrArg TypeRef.raw (Node.mapTokens_list Token.bare ts)
  fun_induction typeOfTokens ts with
  | case1 ts name h =>
    rw [typeOfTokens_eq, only?_map_bare, h]
    rfl
  | case2 ts h hb =>
    rw [typeOfTokens_eq, only?_map_bare, brackets?_map_bare, h, hb]
    exact hraw ts
  | case3 ts h left inner right hb hk =>
    rw [typeOfTokens_eq, only?_map_bare, brackets?_map_bare, h, hb]
    dsimp only [Option.map_none, Option.map_some]
    rw [keyValue?_map_bare, hk]
    exact hraw ts
  | case4 ts h left inner right hb key colon value hk ihk ihv =>
    rw [typeOfTokens_eq (ts.map Token.bare), only?_map_bare, brackets?_map_bare, h, hb]
    dsimp only [Option.map_none, Option.map_some]
    rw [keyValue?_map_bare, hk]
    dsimp only [Option.map_some]
    rw [← ihk, ← ihv]
    rfl

theorem exprOfTokens_eq (ts : List Token) :
    exprOfTokens ts =
      match only? .stringLiteral ts with
      | some literal => .string literal
      | none =>
        match implicitMember? ts with
        | some (period, name) => .implicitMember period name
        | none =>
          match brackets? ts with
          | none => .raw ts
          | some (left, inner, right) =>
            match only? .colon inner with
            | some colon => .emptyDictionary left colon right
            | none =>
              match elementsOfTokens inner with
              | some (e :: es) => .dictionary left (e :: es) right
              | _ => .raw ts := by
  rw [exprOfTokens]
  cases only? .stringLiteral ts with
  | some literal => rfl
  | none =>
    cases implicitMember? ts with
    | some member => rfl
    | none =>
      dsimp only
      split
      next hb => rw [hb]
      next hb =>
        rewrite [hb]
        rfl

theorem elementsOfTokens_cons (t : Token) (ts : List Token) :
    elementsOfTokens (t :: ts) =
      match keyValue? (splitAtComma (t :: ts)).1 with
      | none => none
      | some (key, colon, value) =>
        (elementsOfTokens (splitAtComma (t :: ts)).2.2).map
          (⟨exprOfTokens key, colon, exprOfTokens value, (splitAtComma (t :: ts)).2.1⟩ :: ·) := by
  rw [elementsOfTokens]
  split
  next hk => rw [hk]
  next hk =>
    rw [hk]
    dsimp only
    split
    next he => rw [he]; rfl
    next he => rw [he]; rfl

theorem mapTokens_dictionary (g : Token → Token) (left right : Token)
    (es : List DictionaryElement) :
    Node.mapTokens g (Expr.dictionary left es right) =
      .dictionary (g left) (es.map (Node.mapTokens g)) (g right) := by
  have hlist := congrArg Id.run (DictionaryElement.mapTokensM_list (m := Id)
    (fun t ↦ pure (g t)) es)
  have hmap : Node.mapTokens g es = es.map (Node.mapTokens g) := Node.mapTokens_list g es
  exact congrArg (fun es' ↦ Expr.dictionary (g left) es' (g right)) (hlist.symm.trans hmap)

/-- Expressions and the entries of dictionaries together, since each looks into the other. -/
theorem mapTokens_ofTokens (ts : List Token) :
    Node.mapTokens Token.bare (exprOfTokens ts) = exprOfTokens (ts.map Token.bare) ∧
      (elementsOfTokens ts).map (List.map (Node.mapTokens Token.bare)) =
        elementsOfTokens (ts.map Token.bare) := by
  induction hn : ts.length using Nat.strongRecOn generalizing ts with
  | ind n ih =>
    subst hn
    have hraw : Node.mapTokens Token.bare (Expr.raw ts) = .raw (ts.map Token.bare) :=
      congrArg Expr.raw (Node.mapTokens_list Token.bare ts)
    constructor
    · rw [exprOfTokens_eq, exprOfTokens_eq, only?_map_bare, implicitMember?_map_bare,
        brackets?_map_bare]
      rcases only? .stringLiteral ts with - | literal
      · rcases implicitMember? ts with - | ⟨period, name⟩
        · cases hb : brackets? ts with
          | none => exact hraw
          | some b =>
            obtain ⟨left, inner, right⟩ := b
            have hlen := congrArg List.length (append_of_brackets? hb)
            simp only [List.length_cons, List.length_append, List.length_nil] at hlen
            dsimp only [Option.map_none, Option.map_some]
            rw [only?_map_bare, ← (ih _ (by omega) inner rfl).2]
            rcases only? .colon inner with - | colon
            · rcases elementsOfTokens inner with - | ⟨- | ⟨e, es⟩⟩
              · exact hraw
              · exact hraw
              · exact mapTokens_dictionary Token.bare left right (e :: es)
            · rfl
        · rfl
      · rfl
    · cases ts with
      | nil =>
        rw [List.map_nil, elementsOfTokens]
        rfl
      | cons t rest =>
        have hcomma := congrArg List.length (splitAtComma_append (t :: rest))
        rw [List.map_cons, elementsOfTokens_cons, elementsOfTokens_cons, ← List.map_cons,
          splitAtComma_map_bare]
        dsimp only
        rw [keyValue?_map_bare]
        cases hk : keyValue? (splitAtComma (t :: rest)).1 with
        | none => rfl
        | some pair =>
          obtain ⟨key, colon, value⟩ := pair
          have hpair := congrArg List.length (append_of_keyValue? hk)
          simp at hcomma hpair
          dsimp only [Option.map_some]
          rw [← (ih _ (by simp; omega) key rfl).1, ← (ih _ (by simp; omega) value rfl).1,
            ← (ih _ (by simp; omega) (splitAtComma (t :: rest)).2.2 rfl).2, Option.map_map,
            Option.map_map]
          rcases (splitAtComma (t :: rest)).2.1 with - | comma <;> rfl

theorem like_typeOfTokens {ts us : List Token} (h : us.map Token.bare = ts.map Token.bare) :
    Node.Like (typeOfTokens ts) (typeOfTokens us) := by
  rw [Node.Like, mapTokens_typeOfTokens, mapTokens_typeOfTokens, h]

theorem like_exprOfTokens {ts us : List Token} (h : us.map Token.bare = ts.map Token.bare) :
    Node.Like (exprOfTokens ts) (exprOfTokens us) := by
  rw [Node.Like, (mapTokens_ofTokens ts).1, (mapTokens_ofTokens us).1, h]

end Grammar

end EnumForge
