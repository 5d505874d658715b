import EnumForge.Proofs.Grammar.Likeness
import EnumForge.Proofs.Trivia.Indent

/-!
# Edits of single tokens

Changing one token of a node changes the part that the token stands in and no other.  A part that
is walked first keeps the others as they are; an edit that some function of the tokens does not see
is not seen in any part.
-/

namespace EnumForge

namespace Node

variable {α β : Type} [Node α] [Node β]

/-! ### Edits and parts -/

theorem modifyToken_image (mk : β → α) {b : β} (hmk : tokens (mk b) = tokens b)
    (hwalk : ∀ (f : Token → StateM (List Token) Token) (b : β),
      mapTokensM f (mk b) = mk <$> mapTokensM f b) (i : Nat) (f : Token → Token) :
    modifyToken i f (mk b) = mk (modifyToken i f b) := by
  simp only [modifyToken, withTokens, hmk, hwalk, StateT.run_map]
  rfl

theorem withTokens_pair {a : α} {b : β} (ha : HasShape a) {xs : List Token}
    (hxs : xs.length = (tokens a).length) (ys : List Token) :
    withTokens (a, b) (xs ++ ys) = (withTokens a xs, withTokens b ys) := by
  have hruna := ha.run_append hxs ys
  have hwalk : mapTokensM (m := StateM (List Token)) takeToken (a, b) =
      (do return (← mapTokensM takeToken a, ← mapTokensM takeToken b)) := rfl
  rw [withTokens, hwalk]
  simp only [StateT.run_bind, hruna]
  rfl

theorem modify_append_left {xs : List Token} {i : Nat} (hi : i < xs.length) (ys : List Token)
    (f : Token → Token) : (xs ++ ys).modify i f = xs.modify i f ++ ys := by
  induction xs generalizing i with
  | nil => simp at hi
  | cons x xs ih =>
    cases i with
    | zero => rfl
    | succ i => simpa using ih (by simpa using hi)

theorem modify_append_right {γ : Type} (xs ys : List γ) (f : γ → γ) :
    (xs ++ ys).modify xs.length f = xs ++ ys.modify 0 f := by
  induction xs with
  | nil => rfl
  | cons x xs ih => simpa using ih

/-- A token of the first part of a pair. -/
theorem modifyToken_pair_left {a : α} {b : β} (ha : HasShape a) (hb : HasShape b) {i : Nat}
    (hi : i < (tokens a).length) (f : Token → Token) :
    modifyToken i f (a, b) = (modifyToken i f a, b) := by
  have htokens : tokens (a, b) = tokens a ++ tokens b := rfl
  rw [modifyToken, htokens, modify_append_left hi, withTokens_pair ha (by simp),
    hb.withTokens_tokens]
  rfl

/-- A token of the second part of a pair: its first one. -/
theorem modifyToken_pair_right {a : α} {b : β} (ha : HasShape a) (f : Token → Token) :
    modifyToken (tokens a).length f (a, b) = (a, modifyToken 0 f b) := by
  have htokens : tokens (a, b) = tokens a ++ tokens b := rfl
  rw [modifyToken, htokens, modify_append_right, withTokens_pair ha rfl, ha.withTokens_tokens]
  rfl

/-- An edit that changes no token changes nothing. -/
theorem HasShape.modifyToken_of_eq {a : α} (h : HasShape a) {i : Nat} {f : Token → Token}
    (hf : ∀ t ∈ (tokens a)[i]?, f t = t) : modifyToken i f a = a := by
  have hmodify : (tokens a).modify i f = tokens a := by
    refine List.ext_getElem? fun j ↦ ?_
    rw [List.getElem?_modify]
    by_cases hij : i = j
    · subst hij
      cases ht : (tokens a)[i]? with
      | none => rfl
      | some t => simp [hf t ht]
    · simp [hij]
  rw [modifyToken, hmodify, h.withTokens_tokens]

/-! ### Trailing trivia -/

theorem HasShape.tokens_setTrailing {a : α} (h : HasShape a) (trivia : Trivia) :
    tokens (setTrailing trivia a) =
      (tokens a).modify ((tokens a).length - 1) (·.withTrailing trivia) :=
  h.tokens_modifyToken _ _

theorem HasShape.tokens_setTrailing_concat {a : α} (h : HasShape a) (trivia : Trivia)
    {ts : List Token} {z : Token} (htokens : tokens a = ts ++ [z]) :
    tokens (setTrailing trivia a) = ts ++ [z.withTrailing trivia] := by
  have hlength : (ts ++ [z]).length - 1 = ts.length := by simp
  rw [h.tokens_setTrailing, htokens, hlength, modify_append_right]
  rfl

theorem HasShape.like_setTrailing {a : α} (h : HasShape a) (trivia : Trivia) :
    Like a (setTrailing trivia a) :=
  Eq.symm (h.mapTokens_modifyToken _ (f := (·.withTrailing trivia)) fun _ ↦ rfl)

theorem HasShape.like_trimTrailing {a : α} (h : HasShape a) : Like a (trimTrailing a) :=
  h.like_setTrailing _

theorem HasShape.leading_setTrailing {a : α} (h : HasShape a) (trivia : Trivia) :
    leading (setTrailing trivia a) = leading a := by
  rw [leading, leading, h.tokens_setTrailing]
  rcases tokens a with - | ⟨t, - | ⟨u, ts⟩⟩ <;> rfl

theorem HasShape.trailing_setTrailing {a : α} (h : HasShape a) (hne : tokens a ≠ [])
    (trivia : Trivia) : trailing (setTrailing trivia a) = trivia := by
  have hlast : (tokens a).length - 1 < (tokens a).length := by
    have hpos := List.length_pos_iff.2 hne
    omega
  rw [trailing, h.tokens_setTrailing, List.getLast?_eq_getElem?, List.length_modify,
    List.getElem?_modify, List.getElem?_eq_getElem hlast]
  simp [Token.withTrailing]

/-- A node is trimmed once. -/
theorem HasShape.trimTrailing_trimTrailing {a : α} (h : HasShape a)
    (h' : HasShape (trimTrailing a)) : trimTrailing (trimTrailing a) = trimTrailing a := by
  refine h'.modifyToken_of_eq fun t ht ↦ ?_
  have htrailing : trailing (trimTrailing a) = t.trailing := by
    rw [trailing, List.getLast?_eq_getElem?, Option.mem_def.1 ht]
    rfl
  have hne : tokens a ≠ [] := by
    intro hnil
    simp [trimTrailing, h.tokens_setTrailing, hnil] at ht
  have htrimmed : t.trailing = (trailing a).trimmed := by
    rw [← htrailing, trimTrailing, h.trailing_setTrailing hne]
  rw [htrailing, htrimmed, Trivia.trimmed_trimmed, ← htrimmed]
  rfl

theorem HasShape.like_setLeading {a : α} (h : HasShape a) (trivia : Trivia) :
    Like a (setLeading trivia a) :=
  Eq.symm (h.mapTokens_modifyToken _ (f := (·.withLeading trivia)) fun _ ↦ rfl)

theorem HasShape.trimTrailing_of_trailing {a : α} (h : HasShape a)
    (htrailing : trailing a = .empty) : trimTrailing a = a := by
  refine h.modifyToken_of_eq fun t ht ↦ ?_
  have hempty : t.trailing = .empty := by
    rw [← htrailing, trailing, List.getLast?_eq_getElem?, Option.mem_def.1 ht]
    rfl
  have htrimmed : Trivia.empty.trimmed = .empty := rfl
  rw [htrailing, htrimmed, ← hempty]
  rfl

/-! ### Places -/

theorem source_map_detached (ts : List Token) : source (ts.map Token.detached) = source ts := by
  rw [source, source, tokens_tokenList, tokens_tokenList, List.map_map]
  rfl

theorem HasShape.source_detach {a : α} (h : HasShape a) : source (detach a) = source a := by
  rw [source, detach, h.tokens_mapTokens, List.map_map]
  rfl

theorem HasShape.leading_detach {a : α} (h : HasShape a) : leading (detach a) = leading a := by
  rw [leading, detach, h.tokens_mapTokens, List.head?_map, Option.map_map]
  rfl

theorem HasShape.trailing_detach {a : α} (h : HasShape a) : trailing (detach a) = trailing a := by
  rw [trailing, detach, h.tokens_mapTokens, List.getLast?_map, Option.map_map]
  rfl

theorem HasShape.like_detach {a : α} (h : HasShape a) : Like (detach a) a := by
  rw [Like, detach, h.mapTokens_eq]
  refine h.mapTokens_withTokens_of_map_eq ?_
  rw [List.map_map]
  rfl

/-- Edits do not ask for places. -/
theorem HasShape.detach_modifyToken {a : α} (h : HasShape a) (i : Nat) {f : Token → Token}
    (hf : ∀ t, (f t).detached = f t.detached) :
    detach (modifyToken i f a) = modifyToken i f (detach a) := by
  obtain ⟨fill, hfill⟩ := h
  have hdetach : detach a = fill ((tokens a).map Token.detached) := by
    have hmap := hfill.mapTokens_fill rfl Token.detached
    rwa [hfill.fill_tokens] at hmap
  have hmodify : ((tokens a).modify i f).map Token.detached =
      ((tokens a).map Token.detached).modify i f := by
    induction tokens a generalizing i with
    | nil => simp
    | cons t ts ih => cases i <;> simp [hf, ih]
  have hlength : ((tokens a).map Token.detached).length = (tokens a).length := List.length_map _
  have hedited : (((tokens a).map Token.detached).modify i f).length = (tokens a).length := by simp
  have hrun := hfill.run_fill hlength hedited []
  rw [List.append_nil] at hrun
  rw [modifyToken, hfill.withTokens_eq (by simp), detach, hfill.mapTokens_fill (by simp), hmodify,
    modifyToken, hdetach, hfill.tokens_fill (by simp), withTokens, hrun]

theorem HasShape.detach_setTrailing {a : α} (h : HasShape a) (trivia : Trivia) :
    detach (setTrailing trivia a) = setTrailing trivia (detach a) := by
  have hlength : (tokens (detach a)).length = (tokens a).length := by
    rw [detach, h.tokens_mapTokens, List.length_map]
  rw [setTrailing, setTrailing, hlength]
  exact h.detach_modifyToken (f := (·.withTrailing trivia)) _ fun _ ↦ rfl

end Node

/-! ### The parts of a group -/

theorem NominalDecl.tokens_eq (d : NominalDecl) :
    Node.tokens d = Node.tokens d.head ++ Node.tokens d.block := by
  obtain ⟨head, block⟩ := d
  rfl

theorem MemberBlock.tokens_eq (b : MemberBlock) :
    Node.tokens b = b.leftBrace :: (Member.listTokens b.members ++ [b.rightBrace]) := by
  obtain ⟨left, ms, right⟩ := b
  rfl

theorem NominalDecl.like_parts {d d' : NominalDecl} (h : Node.Like d d') :
    Node.Like d.head d'.head ∧ Node.Like d.block.members d'.block.members := by
  obtain ⟨head, left, ms, right⟩ := d
  obtain ⟨head', left', ms', right'⟩ := d'
  have hblock : Node.mapTokens Token.bare (MemberBlock.mk left ms right) =
      Node.mapTokens Token.bare (MemberBlock.mk left' ms' right') := congrArg NominalDecl.block h
  rw [MemberBlock.mapTokens_mk, MemberBlock.mapTokens_mk] at hblock
  exact ⟨congrArg NominalDecl.head h, Node.like_list_iff.2 (congrArg MemberBlock.members hblock)⟩

/-! ### The front of a group -/

namespace NominalDecl

open Node (modifyToken HasShape)

/-- A nominal type as its front, up to the keyword, and the parts behind it. -/
def ofParts (p : (Preamble × Token) × (Token × Option (List Token) × Option InheritanceClause ×
    Option (List Token) × MemberBlock)) : NominalDecl :=
  ⟨⟨p.1.1, p.1.2, p.2.1, p.2.2.1, p.2.2.2.1, p.2.2.2.2.1⟩, p.2.2.2.2.2⟩

/-- The preamble and the keyword. -/
def front (d : NominalDecl) : Preamble × Token := (d.head.preamble, d.head.keyword)

/-- The same declaration with another front. -/
def withFront (front : Preamble × Token) (d : NominalDecl) : NominalDecl :=
  { d with head.preamble := front.1, head.keyword := front.2 }

theorem hasShape_front (d : NominalDecl) : HasShape d.front :=
  .pair d.head.preamble.hasShape (.token d.head.keyword)

theorem exists_tokens_eq_front (d : NominalDecl) :
    ∃ rest, Node.tokens d = Node.tokens d.front ++ rest := by
  obtain ⟨head, block⟩ := d
  refine ⟨head.name :: (Node.tokens head.generics ++ Node.tokens head.inheritance ++
    Node.tokens head.whereClause) ++ Node.tokens block, ?_⟩
  simp [front, Node.tokens, NominalDecl.tokens]

/-- An edit of the front leaves all behind it as it is. -/
theorem modifyToken_of_lt_front (d : NominalDecl) {i : Nat} (hi : i < (Node.tokens d.front).length)
    (f : Token → Token) : modifyToken i f d = d.withFront (modifyToken i f d.front) := by
  obtain ⟨head, block⟩ := d
  have hparts : HasShape (head.name, head.generics, head.inheritance, head.whereClause,
      block) :=
    .pair (.token _) (.pair (.groupOption _) (.pair (.option fun c _ ↦ c.hasShape)
      (.pair (.groupOption _) block.hasShape)))
  have himage := Node.modifyToken_image ofParts
    (b := (front ⟨head, block⟩, head.name, head.generics, head.inheritance, head.whereClause,
      block))
    (by simp [ofParts, front, Node.tokens, NominalDecl.tokens])
    (fun f p ↦ by simp [ofParts, Node.mapTokensM, NominalDecl.mapTokensM]) i f
  rw [Node.modifyToken_pair_left (hasShape_front ⟨head, block⟩) hparts hi] at himage
  exact himage

end NominalDecl

end EnumForge
