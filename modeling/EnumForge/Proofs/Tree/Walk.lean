import EnumForge.Tree.Decl

/-!
# The walk over the tokens of a node

A node is a shape filled with its tokens.  Filling the shape with other tokens, as many of them,
is what every edit does: the tokens of the result are the new ones, in the same order, and filling
the result once more forgets what it was filled with before.  This is proved for each kind of node
from its parts; a structure is the pair of its first field and the others.
-/

namespace EnumForge

namespace Node

variable {α β : Type} [Node α] [Node β]

/-! ### The walk over a list of tokens -/

/-- As many tokens come out of a walk as go into it, so what follows is asked of such lists only. -/
theorem bind_mapM_congr {m : Type → Type} [Monad m] [LawfulMonad m] {γ : Type} (xs : List Token)
    (f : Token → m Token) {g g' : List Token → m γ}
    (h : ∀ ys : List Token, ys.length = xs.length → g ys = g' ys) :
    xs.mapM f >>= g = xs.mapM f >>= g' := by
  induction xs generalizing g g' with
  | nil => simpa using h [] rfl
  | cons x xs ih =>
    simp only [List.mapM_cons, bind_assoc, pure_bind]
    refine congrArg (f x >>= ·) (funext fun y ↦ ih fun ys hys ↦ h (y :: ys) ?_)
    rw [List.length_cons, List.length_cons, hys]

theorem map_mapM_congr {m : Type → Type} [Monad m] [LawfulMonad m] {γ : Type} (xs : List Token)
    (f : Token → m Token) {g g' : List Token → γ}
    (h : ∀ ys : List Token, ys.length = xs.length → g ys = g' ys) :
    g <$> xs.mapM f = g' <$> xs.mapM f := by
  rw [map_eq_pure_bind, map_eq_pure_bind]
  exact bind_mapM_congr xs f fun ys hys ↦ congrArg pure (h ys hys)

/-- A walk takes its tokens from the head of a supply. -/
theorem run_mapM_takeToken {xs ys : List Token} (hxs : xs.length = ys.length)
    (rest : List Token) : (xs.mapM takeToken).run (ys ++ rest) = (ys, rest) := by
  induction xs generalizing ys with
  | nil =>
    rw [List.length_eq_zero_iff.1 hxs.symm]
    rfl
  | cons x xs ih =>
    cases ys with
    | nil => simp at hxs
    | cons y ys =>
      have hlength : xs.length = ys.length := by simpa using hxs
      have hrest := ih hlength
      have htake : (takeToken x).run (y :: ys ++ rest) = (y, ys ++ rest) := rfl
      rw [List.mapM_cons, StateT.run_bind, htake]
      show (StateT.run (xs.mapM takeToken >>= fun bs ↦ pure (y :: bs)) (ys ++ rest)) = _
      rw [StateT.run_bind, hrest]
      rfl

/-! ### Shapes -/

/-- `fill` is the shape of `a`, as a function of its tokens: to walk over `a` is to walk over its
tokens and to fill the shape with what comes out. -/
structure Shape (a : α) (fill : List Token → α) : Prop where
  fill_tokens : fill (tokens a) = a
  tokens_fill {xs : List Token} (hxs : xs.length = (tokens a).length) : tokens (fill xs) = xs
  walk_fill {m : Type → Type} [Monad m] [LawfulMonad m] {xs : List Token}
    (hxs : xs.length = (tokens a).length) (f : Token → m Token) :
    mapTokensM f (fill xs) = fill <$> xs.mapM f

/-- A node that is a shape filled with its tokens. -/
def HasShape (a : α) : Prop := ∃ fill, Shape a fill

/-! ### What follows from a shape -/

theorem Shape.run_fill {a : α} {fill : List Token → α} (h : Shape a fill) {xs ys : List Token}
    (hxs : xs.length = (tokens a).length) (hys : ys.length = (tokens a).length)
    (rest : List Token) : (mapTokensM takeToken (fill xs)).run (ys ++ rest) = (fill ys, rest) := by
  rw [h.walk_fill hxs, StateT.run_map, run_mapM_takeToken (hxs.trans hys.symm)]
  rfl

theorem Shape.mapTokens_fill {a : α} {fill : List Token → α} (h : Shape a fill)
    {xs : List Token} (hxs : xs.length = (tokens a).length) (g : Token → Token) :
    mapTokens g (fill xs) = fill (xs.map g) := by
  rw [mapTokens, h.walk_fill hxs, List.mapM_pure]
  rfl

theorem Shape.withTokens_eq {a : α} {fill : List Token → α} (h : Shape a fill) {xs : List Token}
    (hxs : xs.length = (tokens a).length) : withTokens a xs = fill xs := by
  have hrun := h.run_fill rfl hxs []
  rw [h.fill_tokens, List.append_nil] at hrun
  simp [withTokens, hrun]

namespace HasShape

variable {a : α} {xs ys : List Token}

theorem tokens_withTokens (h : HasShape a) (hxs : xs.length = (tokens a).length) :
    tokens (withTokens a xs) = xs := by
  obtain ⟨fill, hfill⟩ := h
  rw [hfill.withTokens_eq hxs, hfill.tokens_fill hxs]

theorem withTokens_tokens (h : HasShape a) : withTokens a (tokens a) = a := by
  obtain ⟨fill, hfill⟩ := h
  rw [hfill.withTokens_eq rfl, hfill.fill_tokens]

theorem run_append (h : HasShape a) (hxs : xs.length = (tokens a).length) (rest : List Token) :
    (mapTokensM takeToken a).run (xs ++ rest) = (withTokens a xs, rest) := by
  obtain ⟨fill, hfill⟩ := h
  have hrun := hfill.run_fill rfl hxs rest
  rw [hfill.fill_tokens] at hrun
  rw [hrun, hfill.withTokens_eq hxs]

theorem mapTokens_eq (h : HasShape a) (g : Token → Token) :
    mapTokens g a = withTokens a ((tokens a).map g) := by
  obtain ⟨fill, hfill⟩ := h
  have hmap := hfill.mapTokens_fill rfl g
  rw [hfill.fill_tokens] at hmap
  rw [hmap, hfill.withTokens_eq (by simp)]

/-- The walk that changes tokens visits the tokens that are listed, in their order. -/
theorem tokens_mapTokensM (h : HasShape a) {m : Type → Type} [Monad m] [LawfulMonad m]
    (f : Token → m Token) : tokens <$> mapTokensM f a = (tokens a).mapM f := by
  obtain ⟨fill, hfill⟩ := h
  have hwalk := hfill.walk_fill rfl f
  rw [hfill.fill_tokens] at hwalk
  rw [hwalk, Functor.map_map]
  calc (fun ys ↦ tokens (fill ys)) <$> (tokens a).mapM f
    _ = id <$> (tokens a).mapM f := map_mapM_congr _ f fun ys hys ↦ hfill.tokens_fill hys
    _ = (tokens a).mapM f := id_map _

theorem tokens_mapTokens (h : HasShape a) (g : Token → Token) :
    tokens (mapTokens g a) = (tokens a).map g := by
  rw [h.mapTokens_eq g, h.tokens_withTokens (by simp)]

theorem mapTokens_withTokens (h : HasShape a) (hxs : xs.length = (tokens a).length)
    (g : Token → Token) : mapTokens g (withTokens a xs) = withTokens a (xs.map g) := by
  obtain ⟨fill, hfill⟩ := h
  rw [hfill.withTokens_eq hxs, hfill.mapTokens_fill hxs, hfill.withTokens_eq (by simp [hxs])]

theorem withTokens_mapTokens (h : HasShape a) (g : Token → Token) :
    withTokens (mapTokens g a) (tokens a) = a := by
  obtain ⟨fill, hfill⟩ := h
  have hmap := hfill.mapTokens_fill rfl g
  have hrun := hfill.run_fill (List.length_map g) rfl []
  rw [hfill.fill_tokens] at hmap
  rw [List.append_nil] at hrun
  rw [hmap, withTokens, hrun]
  exact hfill.fill_tokens

/-- A node is what `g` sees of it together with its tokens. -/
theorem ext {b : α} (ha : HasShape a) (hb : HasShape b) {g : Token → Token}
    (hmap : mapTokens g a = mapTokens g b) (htokens : tokens a = tokens b) : a = b := by
  rw [← ha.withTokens_mapTokens g, hmap, htokens, hb.withTokens_mapTokens]

/-- An edit that `g` does not see is not seen in the whole node. -/
theorem mapTokens_withTokens_of_map_eq (h : HasShape a) {g : Token → Token}
    (hxs : xs.map g = (tokens a).map g) : mapTokens g (withTokens a xs) = mapTokens g a := by
  have hlen : xs.length = (tokens a).length := by
    simpa using congrArg List.length hxs
  rw [h.mapTokens_withTokens hlen, hxs, h.mapTokens_eq]

theorem mapTokens_modifyToken (h : HasShape a) (i : Nat) {f g : Token → Token}
    (hfg : ∀ t, g (f t) = g t) : mapTokens g (modifyToken i f a) = mapTokens g a := by
  refine h.mapTokens_withTokens_of_map_eq ?_
  induction tokens a generalizing i with
  | nil => simp
  | cons t ts ih => cases i <;> simp [hfg, ih]

theorem tokens_modifyToken (h : HasShape a) (i : Nat) (f : Token → Token) :
    tokens (modifyToken i f a) = (tokens a).modify i f :=
  h.tokens_withTokens (by simp)

end HasShape

theorem mapTokens_list (g : Token → Token) (as : List α) :
    mapTokens g as = as.map (mapTokens g) := by
  induction as with
  | nil => rfl
  | cons a as ih =>
    have hcons : mapTokens g (a :: as) = mapTokens g a :: mapTokens g as := by
      have hwalk := List.mapM_cons (m := Id) (f := mapTokensM fun t ↦ pure (g t)) (a := a) (l := as)
      exact congrArg Id.run hwalk
    rw [hcons, ih, List.map_cons]

/-! ### Shapes from shapes -/

instance : Node (α × β) where
  tokens p := tokens p.1 ++ tokens p.2
  mapTokensM f p := return (← mapTokensM f p.1, ← mapTokensM f p.2)

theorem HasShape.token (t : Token) : HasShape t := by
  refine ⟨fun xs ↦ xs.headD t, rfl, ?_, ?_⟩
  · intro xs hxs
    obtain ⟨x, rfl⟩ := List.length_eq_one_iff.1 hxs
    rfl
  · intro m _ _ xs hxs f
    obtain ⟨x, rfl⟩ := List.length_eq_one_iff.1 hxs
    simp [mapTokensM]

theorem HasShape.none : HasShape (none : Option α) := by
  refine ⟨fun _ ↦ .none, rfl, ?_, ?_⟩
  · intro xs hxs
    exact (List.length_eq_zero_iff.1 hxs).symm
  · intro m _ _ xs hxs f
    obtain rfl := List.length_eq_zero_iff.1 hxs
    simp [mapTokensM]

theorem HasShape.some {a : α} (h : HasShape a) : HasShape (some a) := by
  obtain ⟨fill, hfill⟩ := h
  refine ⟨fun xs ↦ .some (fill xs), congrArg _ hfill.fill_tokens, ?_, ?_⟩
  · intro xs hxs
    exact hfill.tokens_fill hxs
  · intro m _ _ xs hxs f
    simp only [mapTokensM, hfill.walk_fill hxs, bind_pure_comp, Functor.map_map]

theorem HasShape.pair {a : α} {b : β} (ha : HasShape a) (hb : HasShape b) : HasShape (a, b) := by
  obtain ⟨fa, hfa⟩ := ha
  obtain ⟨fb, hfb⟩ := hb
  have htokens : tokens (a, b) = tokens a ++ tokens b := rfl
  have htake {xs : List Token} (hxs : xs.length = (tokens (a, b)).length) :
      (xs.take (tokens a).length).length = (tokens a).length := by
    rw [htokens, List.length_append] at hxs
    rw [List.length_take]
    omega
  have hdrop {xs : List Token} (hxs : xs.length = (tokens (a, b)).length) :
      (xs.drop (tokens a).length).length = (tokens b).length := by
    rw [htokens, List.length_append] at hxs
    rw [List.length_drop]
    omega
  refine ⟨fun xs ↦ (fa (xs.take (tokens a).length), fb (xs.drop (tokens a).length)), ?_, ?_, ?_⟩
  · rw [htokens, List.take_left, List.drop_left, hfa.fill_tokens, hfb.fill_tokens]
  · intro xs hxs
    show tokens (fa (xs.take (tokens a).length)) ++ tokens (fb (xs.drop (tokens a).length)) = xs
    rw [hfa.tokens_fill (htake hxs), hfb.tokens_fill (hdrop hxs), List.take_append_drop]
  · intro m _ _ xs hxs f
    have hsplit : xs.mapM f =
        (xs.take (tokens a).length ++ xs.drop (tokens a).length).mapM f := by
      rw [List.take_append_drop]
    rw [hsplit]
    simp only [mapTokensM, hfa.walk_fill (htake hxs), hfb.walk_fill (hdrop hxs),
      List.mapM_append, bind_pure_comp, map_bind, bind_map_left, Functor.map_map]
    -- The walk over the first part gives as many tokens as that part has.
    refine bind_mapM_congr _ f fun ys hys ↦ ?_
    simp only [List.take_left' (hys.trans (htake hxs)), List.drop_left' (hys.trans (htake hxs))]

/-- A node that is walked as another one has its shape. -/
theorem HasShape.image (mk : β → α) (hmk : ∀ b, tokens (mk b) = tokens b)
    (hwalk : ∀ {m : Type → Type} [Monad m] [LawfulMonad m] (f : Token → m Token) (b : β),
      mapTokensM f (mk b) = mk <$> mapTokensM f b)
    {b : β} (h : HasShape b) : HasShape (mk b) := by
  obtain ⟨fill, hfill⟩ := h
  refine ⟨fun xs ↦ mk (fill xs), ?_, ?_, ?_⟩
  · rw [hmk, hfill.fill_tokens]
  · intro xs hxs
    rw [hmk, hfill.tokens_fill (by rw [hxs, hmk])]
  · intro m _ _ xs hxs f
    rw [hmk] at hxs
    rw [hwalk, hfill.walk_fill hxs, Functor.map_map]

theorem HasShape.list {as : List α} (h : ∀ a ∈ as, HasShape a) : HasShape as := by
  induction as with
  | nil =>
    refine ⟨fun _ ↦ [], rfl, ?_, ?_⟩
    · intro xs hxs
      exact (List.length_eq_zero_iff.1 hxs).symm
    · intro m _ _ xs hxs f
      obtain rfl := List.length_eq_zero_iff.1 hxs
      simp [mapTokensM]
  | cons a as ih =>
    have ha := h a (by simp)
    have has := ih fun b hb ↦ h b (List.mem_cons_of_mem a hb)
    refine HasShape.image (fun p : α × List α ↦ p.1 :: p.2) (fun _ ↦ rfl) ?_ (ha.pair has)
    intro m _ _ f b
    simp [mapTokensM, List.mapM_cons]

theorem HasShape.option {o : Option α} (h : ∀ a ∈ o, HasShape a) : HasShape o := by
  cases o with
  | none => exact .none
  | some a => exact (h a rfl).some

theorem HasShape.tokenList (ts : List Token) : HasShape ts := .list fun t _ ↦ .token t

theorem HasShape.tokenOption (t : Option Token) : HasShape t := .option fun t _ ↦ .token t

theorem HasShape.groupOption (g : Option (List Token)) : HasShape g :=
  .option fun ts _ ↦ .tokenList ts

end Node

open Node (HasShape)

/-! ### The nodes of the tree -/

@[simp] theorem Node.tokens_tokenList (ts : List Token) : Node.tokens ts = ts :=
  List.flatMap_singleton' ts

theorem Attribute.hasShape (a : Attribute) : HasShape a :=
  .image (fun p : Token × Token × Option (List Token) ↦ (⟨p.1, p.2.1, p.2.2⟩ : Attribute))
    (fun _ ↦ rfl) (fun f p ↦ by simp [Node.mapTokensM])
    (.pair (.token a.atSign) (.pair (.token a.nameToken) (.groupOption a.arguments)))

theorem Modifier.hasShape (m : Modifier) : HasShape m :=
  .image (fun p : Token × Option (List Token) ↦ (⟨p.1, p.2⟩ : Modifier))
    (fun _ ↦ rfl) (fun f p ↦ by simp [Node.mapTokensM])
    (.pair (.token m.name) (.groupOption m.detail))

theorem Preamble.hasShape (p : Preamble) : HasShape p :=
  .image (fun p : List Attribute × List Modifier ↦ (⟨p.1, p.2⟩ : Preamble))
    (fun _ ↦ rfl) (fun f p ↦ by simp [Node.mapTokensM])
    (.pair (.list fun a _ ↦ a.hasShape) (.list fun m _ ↦ m.hasShape))

theorem TypeRef.hasShape (t : TypeRef) : HasShape t := by
  induction t with
  | identifier name =>
    exact .image TypeRef.identifier (fun _ ↦ rfl)
      (fun f p ↦ by simp [Node.mapTokensM, TypeRef.mapTokensM]) (.token name)
  | dictionary left key colon value right ihkey ihvalue =>
    exact .image (fun p : Token × TypeRef × Token × TypeRef × Token ↦
        TypeRef.dictionary p.1 p.2.1 p.2.2.1 p.2.2.2.1 p.2.2.2.2)
      (fun _ ↦ rfl) (fun f p ↦ by simp [Node.mapTokensM, TypeRef.mapTokensM])
      (.pair (.token left) (.pair ihkey (.pair (.token colon) (.pair ihvalue (.token right)))))
  | raw ts =>
    exact .image TypeRef.raw (fun ts ↦ (Node.tokens_tokenList ts).symm)
      (fun f ts ↦ by simp [Node.mapTokensM, TypeRef.mapTokensM]) (.tokenList ts)

theorem InheritedType.hasShape (i : InheritedType) : HasShape i :=
  .image (fun p : TypeRef × Option Token ↦ (⟨p.1, p.2⟩ : InheritedType))
    (fun _ ↦ rfl) (fun f p ↦ by simp [Node.mapTokensM])
    (.pair i.type.hasShape (.tokenOption i.comma))

theorem InheritanceClause.hasShape (c : InheritanceClause) : HasShape c :=
  .image (fun p : Token × List InheritedType ↦ (⟨p.1, p.2⟩ : InheritanceClause))
    (fun _ ↦ rfl) (fun f p ↦ by simp [Node.mapTokensM])
    (.pair (.token c.colon) (.list fun i _ ↦ i.hasShape))

theorem TypeClause.hasShape (c : TypeClause) : HasShape c :=
  .image (fun p : Token × TypeRef ↦ (⟨p.1, p.2⟩ : TypeClause))
    (fun _ ↦ rfl) (fun f p ↦ by simp [Node.mapTokensM])
    (.pair (.token c.colon) c.type.hasShape)

namespace DictionaryElement

theorem tokens_list (es : List DictionaryElement) : Node.tokens es = listTokens es := by
  induction es with
  | nil => rfl
  | cons e es ih =>
    have hcons : Node.tokens (e :: es) = e.tokens ++ Node.tokens es := rfl
    rw [hcons, ih, listTokens]

theorem mapTokensM_list {m : Type → Type} [Monad m] [LawfulMonad m] (f : Token → m Token)
    (es : List DictionaryElement) : Node.mapTokensM f es = listMapTokensM f es := by
  induction es with
  | nil => rfl
  | cons e es ih =>
    have hcons : Node.mapTokensM f (e :: es) =
        (do return (← e.mapTokensM f) :: (← Node.mapTokensM f es)) := List.mapM_cons
    rw [hcons, ih, listMapTokensM]

end DictionaryElement

mutual

theorem Expr.hasShape (e : Expr) : HasShape e :=
  match e with
  | .string literal =>
    .image Expr.string (fun _ ↦ rfl) (fun f p ↦ by simp [Node.mapTokensM, Expr.mapTokensM])
      (.token literal)
  | .implicitMember period name =>
    .image (fun p : Token × Token ↦ Expr.implicitMember p.1 p.2) (fun _ ↦ rfl)
      (fun f p ↦ by simp [Node.mapTokensM, Expr.mapTokensM]) (.pair (.token period) (.token name))
  | .emptyDictionary left colon right =>
    .image (fun p : Token × Token × Token ↦ Expr.emptyDictionary p.1 p.2.1 p.2.2) (fun _ ↦ rfl)
      (fun f p ↦ by simp [Node.mapTokensM, Expr.mapTokensM])
      (.pair (.token left) (.pair (.token colon) (.token right)))
  | .dictionary left elements right =>
    .image (fun p : Token × List DictionaryElement × Token ↦ Expr.dictionary p.1 p.2.1 p.2.2)
      (fun p ↦ congrArg (fun ts ↦ p.1 :: (ts ++ [p.2.2]))
        (DictionaryElement.tokens_list p.2.1).symm)
      (fun f p ↦ by
        simp only [Node.mapTokensM, Expr.mapTokensM, ← DictionaryElement.mapTokensM_list]
        simp)
      (.pair (.token left)
        (.pair (.list (DictionaryElement.hasShape_of_mem elements)) (.token right)))
  | .raw ts =>
    .image Expr.raw (fun ts ↦ (Node.tokens_tokenList ts).symm)
      (fun f ts ↦ by simp [Node.mapTokensM, Expr.mapTokensM]) (.tokenList ts)

theorem DictionaryElement.hasShape (e : DictionaryElement) : HasShape e :=
  match e with
  | ⟨key, colon, value, comma⟩ =>
    .image (fun p : Expr × Token × Expr × Option Token ↦
        (⟨p.1, p.2.1, p.2.2.1, p.2.2.2⟩ : DictionaryElement))
      (fun _ ↦ rfl) (fun f p ↦ by simp [Node.mapTokensM, DictionaryElement.mapTokensM])
      (.pair key.hasShape (.pair (.token colon) (.pair value.hasShape (.tokenOption comma))))

theorem DictionaryElement.hasShape_of_mem (es : List DictionaryElement) : ∀ e ∈ es, HasShape e :=
  match es with
  | [] => by simp
  | e :: es => List.forall_mem_cons.2 ⟨e.hasShape, DictionaryElement.hasShape_of_mem es⟩

end

theorem Initializer.hasShape (i : Initializer) : HasShape i :=
  .image (fun p : Token × Expr ↦ (⟨p.1, p.2⟩ : Initializer))
    (fun _ ↦ rfl) (fun f p ↦ by simp [Node.mapTokensM])
    (.pair (.token i.equal) i.value.hasShape)

theorem CaseElement.hasShape (e : CaseElement) : HasShape e :=
  .image (fun p : Token × Option (List Token) × Option Initializer × Option Token ↦
      (⟨p.1, p.2.1, p.2.2.1, p.2.2.2⟩ : CaseElement))
    (fun p ↦ congrArg (p.1 :: ·) (List.append_assoc _ _ _))
    (fun f p ↦ by simp [Node.mapTokensM])
    (.pair (.token e.name) (.pair (.groupOption e.associatedValue)
      (.pair (.option fun i _ ↦ i.hasShape) (.tokenOption e.comma))))

theorem CaseDecl.hasShape (d : CaseDecl) : HasShape d :=
  .image (fun p : Preamble × Token × List CaseElement ↦ (⟨p.1, p.2.1, p.2.2⟩ : CaseDecl))
    (fun _ ↦ rfl) (fun f p ↦ by simp [Node.mapTokensM])
    (.pair d.preamble.hasShape (.pair (.token d.keyword) (.list fun e _ ↦ e.hasShape)))

theorem BindingDecl.hasShape (d : BindingDecl) : HasShape d :=
  .image (fun p : Preamble × Token × Token × Option TypeClause × Option Initializer ×
      Option (List Token) ↦
      (⟨p.1, p.2.1, p.2.2.1, p.2.2.2.1, p.2.2.2.2.1, p.2.2.2.2.2⟩ : BindingDecl))
    (fun p ↦ congrArg (fun ts ↦ Node.tokens p.1 ++ p.2.1 :: p.2.2.1 :: ts)
      (List.append_assoc _ _ _))
    (fun f p ↦ by simp [Node.mapTokensM])
    (.pair d.preamble.hasShape (.pair (.token d.keyword) (.pair (.token d.nameToken)
      (.pair (.option fun c _ ↦ c.hasShape) (.pair (.option fun i _ ↦ i.hasShape)
        (.groupOption d.accessors))))))

theorem RawDecl.hasShape (d : RawDecl) : HasShape d :=
  .image (fun p : Preamble × List Token ↦ (⟨p.1, p.2⟩ : RawDecl))
    (fun p ↦ congrArg (Node.tokens p.1 ++ ·) (Node.tokens_tokenList p.2).symm)
    (fun f p ↦ by simp [Node.mapTokensM])
    (.pair d.preamble.hasShape (.tokenList d.body))

theorem NominalHead.hasShape (h : NominalHead) : HasShape h :=
  .image (fun p : Preamble × Token × Token × Option (List Token) × Option InheritanceClause ×
      Option (List Token) ↦
      (⟨p.1, p.2.1, p.2.2.1, p.2.2.2.1, p.2.2.2.2.1, p.2.2.2.2.2⟩ : NominalHead))
    (fun p ↦ congrArg (fun ts ↦ Node.tokens p.1 ++ p.2.1 :: p.2.2.1 :: ts)
      (List.append_assoc _ _ _))
    (fun f p ↦ by simp [Node.mapTokensM])
    (.pair h.preamble.hasShape (.pair (.token h.keyword) (.pair (.token h.name)
      (.pair (.groupOption h.generics) (.pair (.option fun c _ ↦ c.hasShape)
        (.groupOption h.whereClause))))))

theorem ExtensionHead.hasShape (h : ExtensionHead) : HasShape h :=
  .image (fun p : Preamble × Token × TypeRef × Option InheritanceClause × Option (List Token) ↦
      (⟨p.1, p.2.1, p.2.2.1, p.2.2.2.1, p.2.2.2.2⟩ : ExtensionHead))
    (fun p ↦ congrArg (fun ts ↦ Node.tokens p.1 ++ p.2.1 :: ts) (List.append_assoc _ _ _))
    (fun f p ↦ by simp [Node.mapTokensM])
    (.pair h.preamble.hasShape (.pair (.token h.keyword) (.pair h.extended.hasShape
      (.pair (.option fun c _ ↦ c.hasShape) (.groupOption h.whereClause)))))

namespace Member

theorem tokens_list (ms : List Member) : Node.tokens ms = listTokens ms := by
  induction ms with
  | nil => rfl
  | cons m ms ih =>
    have hcons : Node.tokens (m :: ms) = m.tokens ++ Node.tokens ms := rfl
    rw [hcons, ih, listTokens]

theorem listTokens_append (ms ms' : List Member) :
    listTokens (ms ++ ms') = listTokens ms ++ listTokens ms' := by
  rw [← tokens_list, ← tokens_list, ← tokens_list]
  exact List.flatMap_append

theorem mapTokensM_list {m : Type → Type} [Monad m] [LawfulMonad m] (f : Token → m Token)
    (ms : List Member) : Node.mapTokensM f ms = listMapTokensM f ms := by
  induction ms with
  | nil => rfl
  | cons x ms ih =>
    have hcons : Node.mapTokensM f (x :: ms) =
        (do return (← x.mapTokensM f) :: (← Node.mapTokensM f ms)) := List.mapM_cons
    rw [hcons, ih, listMapTokensM]

end Member

mutual

theorem Decl.hasShape (d : Decl) : HasShape d :=
  match d with
  | .enum d =>
    .image Decl.enum (fun _ ↦ rfl) (fun f p ↦ by simp [Node.mapTokensM, Decl.mapTokensM])
      d.hasShape
  | .nominal d =>
    .image Decl.nominal (fun _ ↦ rfl) (fun f p ↦ by simp [Node.mapTokensM, Decl.mapTokensM])
      d.hasShape
  | .extension d =>
    .image Decl.extension (fun _ ↦ rfl) (fun f p ↦ by simp [Node.mapTokensM, Decl.mapTokensM])
      d.hasShape
  | .enumCase d =>
    .image Decl.enumCase (fun _ ↦ rfl) (fun f p ↦ by simp [Node.mapTokensM, Decl.mapTokensM])
      d.hasShape
  | .binding d =>
    .image Decl.binding (fun _ ↦ rfl) (fun f p ↦ by simp [Node.mapTokensM, Decl.mapTokensM])
      d.hasShape
  | .raw d =>
    .image Decl.raw (fun _ ↦ rfl) (fun f p ↦ by simp [Node.mapTokensM, Decl.mapTokensM])
      d.hasShape

theorem NominalDecl.hasShape (d : NominalDecl) : HasShape d :=
  match d with
  | ⟨head, block⟩ =>
    .image (fun p : NominalHead × MemberBlock ↦ (⟨p.1, p.2⟩ : NominalDecl)) (fun _ ↦ rfl)
      (fun f p ↦ by simp [Node.mapTokensM, NominalDecl.mapTokensM])
      (.pair head.hasShape block.hasShape)

theorem ExtensionDecl.hasShape (d : ExtensionDecl) : HasShape d :=
  match d with
  | ⟨head, block⟩ =>
    .image (fun p : ExtensionHead × MemberBlock ↦ (⟨p.1, p.2⟩ : ExtensionDecl)) (fun _ ↦ rfl)
      (fun f p ↦ by simp [Node.mapTokensM, ExtensionDecl.mapTokensM])
      (.pair head.hasShape block.hasShape)

theorem MemberBlock.hasShape (b : MemberBlock) : HasShape b :=
  match b with
  | ⟨left, members, right⟩ =>
    .image (fun p : Token × List Member × Token ↦ (⟨p.1, p.2.1, p.2.2⟩ : MemberBlock))
      (fun p ↦ congrArg (fun ts ↦ p.1 :: (ts ++ [p.2.2])) (Member.tokens_list p.2.1).symm)
      (fun f p ↦ by
        simp only [Node.mapTokensM, MemberBlock.mapTokensM, ← Member.mapTokensM_list]
        simp)
      (.pair (.token left) (.pair (.list (Member.hasShape_of_mem members)) (.token right)))

theorem Member.hasShape (m : Member) : HasShape m :=
  match m with
  | ⟨decl, semicolon⟩ =>
    .image (fun p : Decl × Option Token ↦ (⟨p.1, p.2⟩ : Member)) (fun _ ↦ rfl)
      (fun f p ↦ by simp [Node.mapTokensM, Member.mapTokensM])
      (.pair decl.hasShape (.tokenOption semicolon))

theorem Member.hasShape_of_mem (ms : List Member) : ∀ m ∈ ms, HasShape m :=
  match ms with
  | [] => by simp
  | m :: ms => List.forall_mem_cons.2 ⟨m.hasShape, Member.hasShape_of_mem ms⟩

end

theorem SourceFile.hasShape (f : SourceFile) : HasShape f :=
  .image (fun p : List Member × Token ↦ (⟨p.1, p.2⟩ : SourceFile)) (fun _ ↦ rfl)
    (fun f p ↦ by simp [Node.mapTokensM])
    (.pair (.list fun m _ ↦ m.hasShape) (.token f.endOfFile))

end EnumForge
