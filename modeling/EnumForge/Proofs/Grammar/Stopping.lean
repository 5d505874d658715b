import EnumForge.Proofs.Grammar.Plain

/-!
# Where readers stop

A reader that is done with its node looks at nothing behind it but the token that it stops before.
So a node that was read once is read again in front of other tokens, and attributes may be left out
from the front of a declaration.
-/

namespace EnumForge

open Node (Like)

namespace Grammar

/-! ### Runs -/

theorem map_consRun_eq_some {o : Option (List Token × List Token)} {t : Token}
    {run rest : List Token} :
    o.map (consRun t) = some (t :: run, rest) ↔ o = some (run, rest) := by
  cases o <;> simp [consRun, Prod.ext_iff]

theorem map_consRun_ne_nil {o : Option (List Token × List Token)} {t : Token}
    {rest : List Token} : o.map (consRun t) ≠ some ([], rest) := by
  cases o <;> simp [consRun]

variable {run rest : List Token}

theorem balancedRun_append {depth : Nat} (h : balancedRun depth (run ++ rest) = some (run, rest))
    (rest' : List Token) : balancedRun depth (run ++ rest') = some (run, rest') := by
  induction run generalizing depth with
  | nil =>
    rw [List.nil_append] at h
    unfold balancedRun at h
    split at h
    · simp at h
    split at h
    · exact absurd h map_consRun_ne_nil
    split at h
    · split at h
      · simp at h
      · exact absurd h map_consRun_ne_nil
    · exact absurd h map_consRun_ne_nil
  | cons t run ih =>
    rw [List.cons_append, balancedRun] at h ⊢
    by_cases hopens : t.kind.opens = true
    · rw [if_pos hopens, map_consRun_eq_some] at h ⊢
      exact ih h
    by_cases hcloses : t.kind.closes = true
    · rw [if_neg hopens, if_pos hcloses] at h ⊢
      by_cases hdepth : depth ≤ 1
      · rw [if_pos hdepth] at h ⊢
        obtain rfl : [] = run := by simpa using (Prod.mk.inj (Option.some.inj h)).1
        rfl
      · rw [if_neg hdepth, map_consRun_eq_some] at h ⊢
        exact ih h
    · rw [if_neg hopens, if_neg hcloses, map_consRun_eq_some] at h ⊢
      exact ih h

theorem angleRun_append {depth : Int} {run' : List Token}
    (h : angleRun depth (run ++ rest) = some (run, rest))
    (hrun : run.map Token.bare = run'.map Token.bare) (rest' : List Token) :
    angleRun depth (run' ++ rest') = some (run', rest') := by
  induction run generalizing depth run' with
  | nil =>
    rw [List.nil_append] at h
    unfold angleRun at h
    split at h
    · simp at h
    split at h
    · simp at h
    · exact absurd h map_consRun_ne_nil
  | cons t run ih =>
    cases run' with
    | nil => simp at hrun
    | cons u run' =>
      obtain ⟨hbare, hrun⟩ := List.cons.inj hrun
      have hdelta : angleDelta u.bare = angleDelta t.bare := congrArg angleDelta hbare.symm
      replace hdelta : angleDelta u = angleDelta t := hdelta
      rw [List.cons_append, angleRun] at h ⊢
      rw [hdelta]
      by_cases hdepth : depth + angleDelta t ≤ 0
      · rw [if_pos hdepth] at h ⊢
        obtain rfl : [] = run := by simpa using (Prod.mk.inj (Option.some.inj h)).1
        obtain rfl : run' = [] := by simpa using hrun.symm
        rfl
      · rw [if_neg hdepth, map_consRun_eq_some] at h ⊢
        exact ih h hrun

/-- A type that was read before something is read before every token that ends types. -/
theorem typeRun_append {depth : Int} {started : Bool} {run' : List Token}
    (h : typeRun depth started (run ++ rest) = some (run, rest))
    (hrun : List.Forall₂ Token.SameLook run run') (hstart : started = true ∨ run ≠ [])
    {u : Token} (hu : endsType u = true) (us : List Token) :
    typeRun depth started (run' ++ u :: us) = some (run', u :: us) := by
  induction hrun generalizing depth started with
  | nil =>
    obtain rfl : started = true := by simpa using hstart
    have hdepth : depth = 0 := by
      rw [List.nil_append] at h
      unfold typeRun at h
      split at h
      · split at h
        next hdepth => exact hdepth
        next => simp at h
      · split at h
        next hstop => exact hstop.1
        next => exact absurd h map_consRun_ne_nil
    rw [hdepth, List.nil_append, typeRun_stop hu]
  | @cons t t' run run' look _ ih =>
    rw [List.cons_append, typeRun] at h ⊢
    rw [endsType_of_sameLook look, look.startsLine, typeDelta_of_sameLook look]
    split at h
    next => simp at h
    next hgo =>
      rw [if_neg hgo, map_consRun_eq_some]
      exact ih (map_consRun_eq_some.1 h) (.inl rfl)

theorem exists_type_append {t : TypeRef} (h : type (Node.tokens t ++ rest) = .ok (t, rest))
    {run' : List Token} (hrun : List.Forall₂ Token.SameLook (Node.tokens t) run') {u : Token}
    (hu : endsType u = true) (us : List Token) :
    ∃ t', type (run' ++ u :: us) = .ok (t', u :: us) := by
  unfold type at h
  split at h
  · simp at h
  · simp at h
  next run rest' hne htype =>
    obtain ⟨rfl, rfl⟩ := ok_pair_inj.1 h
    rw [tokens_typeOfTokens] at hrun htype
    have hrun_ne : run ≠ [] := by
      rintro rfl
      exact hne rfl
    have htype' := typeRun_append htype hrun (.inr hrun_ne) hu us
    refine ⟨typeOfTokens run', ?_⟩
    cases hrun with
    | nil => exact absurd rfl hrun_ne
    | cons => rw [type, htype']

/-- A group ends with a closing delimiter. -/
theorem exists_last_of_balancedRun {depth : Nat} {ts : List Token}
    (h : balancedRun depth ts = some (run, rest)) :
    ∃ init z, run = init ++ [z] ∧ z.kind.closes = true := by
  have hcons {depth : Nat} {t : Token} {ts run : List Token}
      (ih : ∀ run, balancedRun depth ts = some (run, rest) →
        ∃ init z, run = init ++ [z] ∧ z.kind.closes = true)
      (h : (balancedRun depth ts).map (consRun t) = some (run, rest)) :
      ∃ init z, run = init ++ [z] ∧ z.kind.closes = true := by
    cases run with
    | nil => exact absurd h map_consRun_ne_nil
    | cons u run =>
      obtain ⟨⟨run', rest'⟩, hrun, he⟩ := Option.map_eq_some_iff.1 h
      simp only [consRun, Prod.mk.injEq, List.cons.injEq] at he
      obtain ⟨⟨rfl, rfl⟩, rfl⟩ := he
      obtain ⟨init, z, rfl, hz⟩ := ih run' hrun
      exact ⟨t :: init, z, rfl, hz⟩
  induction ts generalizing depth run with
  | nil => simp [balancedRun] at h
  | cons t ts ih =>
    rw [balancedRun] at h
    split at h
    · exact hcons (fun _ ↦ ih) h
    split at h
    next hcloses =>
      split at h
      next =>
        obtain rfl : [t] = run := (Prod.mk.inj (Option.some.inj h)).1
        exact ⟨[], t, rfl, hcloses⟩
      next => exact hcons (fun _ ↦ ih) h
    next => exact hcons (fun _ ↦ ih) h

/-! ### Attributes -/

theorem argumentsOf_append {name : Token} {arguments : Option (List Token)}
    (h : argumentsOf name (Node.tokens arguments ++ rest) = .ok (arguments, rest))
    {rest' : List Token} (hback : looksBack rest' = false) :
    argumentsOf name (Node.tokens arguments ++ rest') = .ok (arguments, rest') := by
  cases arguments with
  | none => exact argumentsOf_of_looksBack name hback
  | some group =>
    have htokens : Node.tokens (some group) = group := by simp [Node.tokens]
    rw [htokens] at h ⊢
    rw [argumentsOf] at h ⊢
    split at h
    next hempty =>
      rw [if_pos hempty]
      cases group with
      | nil =>
        unfold groupAt at h
        split at h
        · simp at h
        · split at h
          · split at h <;> simp at h
          · simp at h
      | cons t run =>
        rw [List.cons_append, groupAt] at h ⊢
        split at h
        next hopens =>
          split at h
          next hrun =>
            simp only [Except.ok.injEq, Prod.mk.injEq, Option.some.injEq, List.cons.injEq,
              true_and] at h
            obtain ⟨rfl, rfl⟩ := h
            rw [if_pos hopens, balancedRun_append hrun]
          next => simp at h
        next => simp at h
    next => simp at h

theorem exists_last_of_argumentsOf {name : Token} {ts group : List Token}
    (h : argumentsOf name ts = .ok (some group, rest)) :
    ∃ init z, group = init ++ [z] ∧ z.kind.closes = true := by
  rw [argumentsOf] at h
  split at h
  · unfold groupAt at h
    split at h
    · simp at h
    · split at h
      · split at h
        next hrun =>
          simp only [Except.ok.injEq, Prod.mk.injEq, Option.some.injEq] at h
          obtain ⟨rfl, -⟩ := h
          obtain ⟨init, z, rfl, hz⟩ := exists_last_of_balancedRun hrun
          exact ⟨_ :: init, z, rfl, hz⟩
        next => simp at h
      · simp at h
  · simp at h

end Grammar

open Grammar (attributeAfter looksBack)

/-- An attribute that is read wherever nothing goes on as its arguments. -/
structure Attribute.Standing (a : Attribute) : Prop where
  atSign : a.atSign.kind = .atSign
  reads (t : Token) (rest : List Token) : looksBack rest = false →
    attributeAfter t (a.nameToken :: (Node.tokens a.arguments ++ rest)) =
      .ok ({ a with atSign := t }, rest)

/-- An attribute ends with its name or with a closing parenthesis. -/
theorem Attribute.Standing.exists_last {a : Attribute} (h : a.Standing) :
    ∃ ts z, Node.tokens a = a.atSign :: (ts ++ [z]) ∧
      (z.kind = .identifier ∨ z.kind = .keyword ∨ z.kind.closes = true) := by
  have hread := h.reads a.atSign [] rfl
  rw [List.append_nil, attributeAfter] at hread
  split at hread
  next hname =>
    obtain ⟨⟨arguments, rest⟩, harguments, hread⟩ := bind_eq_ok.1 hread
    obtain ⟨ha, -⟩ := Grammar.ok_pair_inj.1 hread
    obtain rfl : arguments = a.arguments := congrArg Attribute.arguments ha
    have htokens : Node.tokens a = a.atSign :: a.nameToken :: Node.tokens a.arguments := rfl
    rw [htokens]
    cases hgroup : a.arguments with
    | none => exact ⟨[], a.nameToken, rfl, by tauto⟩
    | some group =>
      rw [hgroup] at harguments
      obtain ⟨init, z, rfl, hz⟩ := Grammar.exists_last_of_argumentsOf harguments
      exact ⟨a.nameToken :: init, z, by simp [Node.tokens], .inr (.inr hz)⟩
  next => simp at hread

/-- Attributes go from an at-sign to the end of the last one. -/
theorem Attribute.exists_ends {as : List Attribute} (has : ∀ a ∈ as, a.Standing) (hne : as ≠ []) :
    ∃ t ts z, Node.tokens as = t :: (ts ++ [z]) ∧ t.kind = .atSign ∧
      (z.kind = .identifier ∨ z.kind = .keyword ∨ z.kind.closes = true) := by
  obtain ⟨init, a, rfl⟩ := (List.eq_nil_or_concat' as).resolve_left hne
  obtain ⟨ts, z, ha, hz⟩ := (has a (by simp)).exists_last
  have htokens : Node.tokens (init ++ [a]) = Node.tokens init ++ a.atSign :: (ts ++ [z]) := by
    rw [← ha]
    simp [Node.tokens]
  rw [htokens]
  cases init with
  | nil => exact ⟨a.atSign, ts, z, rfl, (has a (by simp)).atSign, hz⟩
  | cons b init =>
    refine ⟨b.atSign, b.nameToken :: (Node.tokens b.arguments ++
      (Node.tokens init ++ a.atSign :: ts)), z, ?_, (has b (by simp)).atSign, hz⟩
    simp [Node.tokens]

theorem Attribute.Standing.withLeading {a : Attribute} (h : a.Standing) (leading : Trivia) :
    ({ a with atSign := a.atSign.withLeading leading } : Attribute).Standing :=
  ⟨h.atSign, h.reads⟩

namespace Grammar

variable {run rest ts : List Token}

theorem standing_of_attributeAfter {t : Token} {a : Attribute} (ht : t.kind = .atSign)
    (h : attributeAfter t ts = .ok (a, rest)) : a.Standing := by
  unfold attributeAfter at h
  split at h
  · simp at h
  next name ts =>
    split at h
    next hname =>
      obtain ⟨⟨arguments, rest'⟩, harguments, h⟩ := bind_eq_ok.1 h
      obtain ⟨rfl, rfl⟩ := ok_pair_inj.1 h
      rw [← reads_argumentsOf _ _ _ _ harguments] at harguments
      refine ⟨ht, fun t rest hback ↦ ?_⟩
      rw [attributeAfter, if_pos hname]
      exact bind_eq_ok.2 ⟨_, argumentsOf_append harguments hback, rfl⟩
    next => simp at h

theorem attributes_eq_cons {a : Attribute} {as : List Attribute}
    (h : attributes ts = .ok (a :: as, rest)) : a.Standing ∧ ∃ after,
      ts = Node.tokens a ++ after ∧ attributes after = .ok (as, rest) := by
  cases ts with
  | nil => simp [attributes] at h
  | cons t ts =>
    rw [attributes] at h
    split at h
    next ht =>
      split at h
      · simp at h
      next a' after hfirst =>
        split at h
        · simp at h
        next hrest =>
          obtain ⟨hcons, rfl⟩ := ok_pair_inj.1 h
          obtain ⟨rfl, rfl⟩ := List.cons.inj hcons
          exact ⟨standing_of_attributeAfter ht hfirst, after,
            (reads_attributeAfter _ _ _ _ hfirst).symm, hrest⟩
    next => simp at h

theorem attributes_eq_nil {t : Token} :
    attributes (t :: ts) = .ok ([], rest) ↔ t.kind ≠ .atSign ∧ t :: ts = rest := by
  rw [attributes]
  split
  next ht =>
    split
    · simp [ht]
    · split <;> simp [ht]
  next ht => simp [ht]

/-- The first of the attributes may be left out. -/
theorem attributes_split {xs ys : List Attribute} (h : attributes ts = .ok (xs ++ ys, rest)) :
    (∀ x ∈ xs, x.Standing) ∧
      ∃ after, ts = Node.tokens xs ++ after ∧ attributes after = .ok (ys, rest) := by
  induction xs generalizing ts with
  | nil => exact ⟨by simp, ts, rfl, h⟩
  | cons x xs ih =>
    obtain ⟨hx, after, rfl, hrest⟩ := attributes_eq_cons h
    obtain ⟨hxs, after', rfl, hys⟩ := ih hrest
    exact ⟨List.forall_mem_cons.2 ⟨hx, hxs⟩, after', (List.append_assoc _ _ _).symm, hys⟩

/-- Attributes may be put in front of others. -/
theorem attributes_append {xs ys : List Attribute} (hxs : ∀ x ∈ xs, x.Standing)
    (h : attributes ts = .ok (ys, rest)) (hback : looksBack ts = false) :
    attributes (Node.tokens xs ++ ts) = .ok (xs ++ ys, rest) := by
  induction xs with
  | nil => exact h
  | cons x xs ih =>
    obtain ⟨hx, hxs⟩ := List.forall_mem_cons.1 hxs
    have hnext : looksBack (Node.tokens xs ++ ts) = false := by
      cases xs with
      | nil => exact hback
      | cons y xs => simp [looksBack, Node.tokens, (hxs y List.mem_cons_self).atSign]
    have htokens : Node.tokens (x :: xs) ++ ts =
        x.atSign :: x.nameToken :: (Node.tokens x.arguments ++ (Node.tokens xs ++ ts)) := by
      simp [Node.tokens]
    rw [htokens]
    exact attributes_cons hx.atSign (hx.reads x.atSign _ hnext) (ih hxs)

/-! ### Modifiers -/

theorem looksBack_of_startsItem {t : Token} (h : t.startsItem = true) (ts : List Token) :
    looksBack (t :: ts) = false := by
  simp only [Token.startsItem, Bool.or_eq_true, beq_iff_eq, Bool.and_eq_true] at h
  rcases h with (h | h) | ⟨h, -⟩ <;> simp [looksBack, h]

theorem text_ne_of_mem_groupWords {t : Token} (h : t.text ∈ groupWords) : t.text ≠ "where" := by
  intro hwhere
  rw [hwhere] at h
  revert h
  decide

theorem startsItem_of_isModifier {t : Token} {next : Option Token}
    (h : isModifier t next = true) : t.startsItem = true := by
  have hword := text_ne_of_mem_groupWords (mem_groupWords_of_isModifier h)
  simp only [isModifier, Bool.and_eq_true, Bool.or_eq_true, beq_iff_eq] at h
  rcases h.1 with hkind | hkind <;> simp [Token.startsItem, hkind, hword]

theorem looksBack_of_modifiers {ms : List Modifier} (h : modifiers ts = .ok (ms, rest))
    (hback : looksBack rest = false) : looksBack ts = false := by
  cases ts with
  | nil => rfl
  | cons t ts =>
    by_cases hmodifier : isModifier t ts.head? = true
    · exact looksBack_of_startsItem (startsItem_of_isModifier hmodifier) ts
    · rw [modifiers, if_neg hmodifier] at h
      obtain ⟨-, rfl⟩ := ok_pair_inj.1 h
      exact hback

theorem modifiers_eq_nil {t : Token} :
    modifiers (t :: ts) = .ok ([], rest) ↔ isModifier t ts.head? = false ∧ t :: ts = rest := by
  rw [modifiers]
  split
  next ht =>
    split
    · simp [ht]
    · split <;> simp [ht]
  next ht => simp [ht]

theorem modifiers_eq_cons {m : Modifier} {ms : List Modifier}
    (h : modifiers ts = .ok (m :: ms, rest)) : ∃ after, ts = Node.tokens m ++ after ∧
      isModifier m.name (Node.tokens m.detail ++ after).head? = true ∧
      argumentsOf m.name (Node.tokens m.detail ++ after) = .ok (m.detail, after) ∧
      modifiers after = .ok (ms, rest) := by
  cases ts with
  | nil => simp [modifiers] at h
  | cons t ts =>
    rw [modifiers] at h
    split at h
    next hmodifier =>
      split at h
      · simp at h
      next detail after hdetail =>
        split at h
        · simp at h
        next hrest =>
          obtain ⟨hcons, rfl⟩ := ok_pair_inj.1 h
          obtain ⟨rfl, rfl⟩ := List.cons.inj hcons
          have hts := reads_argumentsOf _ _ _ _ hdetail
          refine ⟨after, ?_, ?_, ?_, hrest⟩
          · exact congrArg (t :: ·) hts.symm
          · rwa [hts]
          · rwa [hts]
    next => simp at h

/-- Modifiers end at a token that is judged by the one after it. -/
theorem modifiers_append {ms : List Modifier} {k : Token}
    (h : modifiers (Node.tokens ms ++ k :: ts) = .ok (ms, k :: ts))
    (hback : looksBack (k :: ts) = false) {ts' : List Token}
    (hnext : ts'.head?.map Token.bare = ts.head?.map Token.bare) :
    modifiers (Node.tokens ms ++ k :: ts') = .ok (ms, k :: ts') := by
  induction ms with
  | nil =>
    obtain ⟨hk, -⟩ := modifiers_eq_nil.1 h
    rw [← isModifier_of_sameLook (.refl k) hnext] at hk
    exact modifiers_eq_nil.2 ⟨hk, rfl⟩
  | cons m ms ih =>
    have htokens (us : List Token) : Node.tokens (m :: ms) ++ us =
        m.name :: (Node.tokens m.detail ++ (Node.tokens ms ++ us)) := by
      simp [Node.tokens]
    obtain ⟨after, hafter, hmodifier, hdetail, hrest⟩ := modifiers_eq_cons h
    obtain rfl : after = Node.tokens ms ++ k :: ts := by
      rw [htokens] at hafter
      exact (List.append_cancel_left (List.cons.inj hafter).2).symm
    have hhead (us : List Token) : (us ++ k :: ts').head? = (us ++ k :: ts).head? := by
      cases us <;> rfl
    have hback' : looksBack (Node.tokens ms ++ k :: ts') = false := by
      rw [looksBack, hhead]
      exact looksBack_of_modifiers hrest hback
    rw [htokens]
    refine modifiers_cons ?_ (argumentsOf_append hdetail hback') (ih hrest)
    rwa [← List.append_assoc, hhead, List.append_assoc]

/-! ### Clauses -/

theorem angleRun_ne_nil {depth : Int} : angleRun depth ts ≠ some ([], rest) := by
  unfold angleRun
  split
  · simp
  · split
    · simp
    · exact map_consRun_ne_nil

theorem generics_eq_some {group : List Token} (h : generics ts = .ok (some group, rest)) :
    ∃ t run, group = t :: run ∧ (t.kind = .operator ∧ t.text.toList.head? = some '<') ∧
      angleRun 0 ts = some (group, rest) := by
  unfold generics at h
  split at h
  · simp at h
  next t ts =>
    split at h
    next hangle =>
      split at h
      next run rest' hrun =>
        simp only [Except.ok.injEq, Prod.mk.injEq, Option.some.injEq] at h
        obtain ⟨rfl, rfl⟩ := h
        obtain ⟨u, run, rfl⟩ : ∃ u run', run = u :: run' :=
          List.exists_cons_of_ne_nil fun hnil ↦ angleRun_ne_nil (hnil ▸ hrun)
        obtain ⟨rfl, -⟩ := List.cons.inj (append_of_angleRun hrun)
        exact ⟨u, run, rfl, hangle, hrun⟩
      next => simp at h
    next => simp at h

theorem generics_append {group group' : Option (List Token)}
    (h : generics (Node.tokens group ++ rest) = .ok (group, rest)) (hlike : Node.Like group group')
    {u : Token} (hu : u.kind ≠ .operator) (us : List Token) :
    generics (Node.tokens group' ++ u :: us) = .ok (group', u :: us) := by
  cases group with
  | none =>
    obtain rfl : group' = none := by simpa using isSome_of_like hlike
    show generics (u :: us) = _
    rw [generics, if_neg fun hangle ↦ hu hangle.1]
  | some group =>
    obtain ⟨group', rfl⟩ : ∃ g, group' = some g := by
      simpa [Option.isSome_iff_exists] using isSome_of_like hlike
    have htokens (g : List Token) : Node.tokens (some g) = g := by simp [Node.tokens]
    have hmap (g : List Token) : Node.mapTokens Token.bare (some g) = some (g.map Token.bare) :=
      congrArg some (Node.mapTokens_list Token.bare g)
    have hbare : group.map Token.bare = group'.map Token.bare := by
      rw [Node.Like, hmap, hmap] at hlike
      exact Option.some.inj hlike
    obtain ⟨t, run, rfl, hangle, hrun⟩ := generics_eq_some h
    rw [htokens] at hrun ⊢
    obtain ⟨t', run', rfl, ht, -⟩ := List.map_eq_cons_iff.1 hbare.symm
    have hkind := congrArg Token.kind ht
    have htext := congrArg Token.text ht
    have hangle' : t'.kind = .operator ∧ t'.text.toList.head? = some '<' :=
      ⟨hkind.trans hangle.1, (congrArg (·.toList.head?) htext).trans hangle.2⟩
    have hrun' := angleRun_append hrun hbare (u :: us)
    rw [List.cons_append] at hrun' ⊢
    rw [generics, if_pos hangle', hrun']

theorem inheritance_eq_some {colon : Token} {clause : InheritanceClause} :
    inheritance (colon :: ts) = .ok (some clause, rest) ↔ colon.kind = .colon ∧
      clause.colon = colon ∧ inheritedTypes ts = .ok (clause.types, rest) := by
  rw [inheritance]
  split
  next hcolon =>
    rw [bind_eq_ok]
    constructor
    · rintro ⟨⟨types, rest'⟩, htypes, h⟩
      obtain ⟨⟨⟩, rfl⟩ := ok_pair_inj.1 h
      exact ⟨hcolon, rfl, htypes⟩
    · rintro ⟨-, rfl, htypes⟩
      exact ⟨_, htypes, rfl⟩
  next hcolon => simp [hcolon]

/-- No type starts with an opening brace. -/
theorem kind_ne_of_inheritedTypes {t : Token} {is : List InheritedType}
    (h : inheritedTypes (t :: ts) = .ok (is, rest)) : t.kind ≠ .leftBrace := by
  intro hkind
  have hends : endsType t = true := by simp [endsType, hkind]
  rw [inheritedTypes, type, typeRun_stop hends] at h
  simp at h

/-- The types of a clause with `last` at the end, as they were read. -/
structure ListRead (init : List InheritedType) (last : InheritedType) : Prop where
  commas : ∀ i ∈ init, i.comma.isSome = true
  comma : ∀ c ∈ last.comma, c.kind = .comma
  type : Node.tokens last.type ≠ []
  /-- One more type is read behind the last one, with a comma between them. -/
  concat (run : List Token) (c entry u : Token) (us : List Token) :
    List.Forall₂ Token.SameLook (Node.tokens last.type) run → c.kind = .comma →
      entry.kind = .identifier → endsType u = true → u.kind ≠ .comma →
      ∃ is, inheritedTypes (Node.tokens init ++ (run ++ c :: entry :: u :: us)) = .ok (is, u :: us)

theorem ListRead.cons {init : List InheritedType} {last : InheritedType} {t : TypeRef} {c : Token}
    (h : ListRead init last) (hc : c.kind = .comma)
    (ht : Grammar.type (Node.tokens t ++ c :: rest) = .ok (t, c :: rest)) :
    ListRead (⟨t, some c⟩ :: init) last := by
  refine ⟨List.forall_mem_cons.2 ⟨rfl, h.commas⟩, h.comma, h.type, ?_⟩
  intro run d entry u us hrun hd hentry hu hne
  obtain ⟨is, hread⟩ := h.concat run d entry u us hrun hd hentry hu hne
  have hself : List.Forall₂ Token.SameLook (Node.tokens t) (Node.tokens t) :=
    List.forall₂_same.2 fun v _ ↦ .refl v
  obtain ⟨t', ht'⟩ := exists_type_append ht hself (u := c) (by simp [endsType, hc])
    (Node.tokens init ++ (run ++ d :: entry :: u :: us))
  have hmore : continuesList (some c)
      (Node.tokens init ++ (run ++ d :: entry :: u :: us)) = true := by
    cases hnext : Node.tokens init ++ (run ++ d :: entry :: u :: us) with
    | nil => simp at hnext
    | cons v vs =>
      rw [hnext] at hread
      simpa [continuesList] using kind_ne_of_inheritedTypes hread
  have htake (ts : List Token) : takeKind .comma (c :: ts) = (some c, ts) := by
    rw [takeKind, if_pos hc]
  have htokens : Node.tokens (InheritedType.mk t (some c) :: init) ++
      (run ++ d :: entry :: u :: us) =
        Node.tokens t ++ c :: (Node.tokens init ++ (run ++ d :: entry :: u :: us)) := by
    simp [Node.tokens]
  rw [htokens]
  exact ⟨_, inheritedTypes_cons ht' (by rwa [htake]) (by rwa [htake])⟩

theorem inheritedTypes_name {name u : Token} (hname : name.kind = .identifier)
    (hu : endsType u = true) (hne : u.kind ≠ .comma) (us : List Token) :
    inheritedTypes (name :: u :: us) = .ok ([⟨.identifier name, none⟩], u :: us) := by
  have htake : takeKind .comma (u :: us) = (none, u :: us) := by rw [takeKind, if_neg hne]
  have hsingle := inheritedTypes_single (type_name hname hu) (by rw [htake]; rfl)
  rwa [htake] at hsingle

theorem listRead_single {t : TypeRef} {comma : Option Token}
    (hcomma : ∀ c ∈ comma, c.kind = .comma)
    (ht : Grammar.type (Node.tokens t ++ rest) = .ok (t, rest)) : ListRead [] ⟨t, comma⟩ := by
  refine ⟨by simp, hcomma, tokens_ne_nil_of_type ht, ?_⟩
  intro run c entry u us hrun hc hentry hu hne
  obtain ⟨t', ht'⟩ := exists_type_append ht hrun (u := c) (by simp [endsType, hc])
    (entry :: u :: us)
  have htake : takeKind .comma (c :: entry :: u :: us) = (some c, entry :: u :: us) := by
    rw [takeKind, if_pos hc]
  exact ⟨_, inheritedTypes_cons ht' (by simp [htake, continuesList, hentry])
    (by rw [htake]; exact inheritedTypes_name hentry hu hne us)⟩

theorem exists_listRead {is : List InheritedType} (h : inheritedTypes ts = .ok (is, rest)) :
    ∃ init last, is = init ++ [last] ∧ ListRead init last := by
  fun_induction inheritedTypes ts generalizing is rest with
  | case1 | case2 => simp at h
  | case3 ts t rest₁ ht hmore is₁ rest₂ hrest₁ ih =>
    obtain ⟨rfl, rfl⟩ := ok_pair_inj.1 h
    obtain ⟨init, last, rfl, hlist⟩ := ih hrest₁
    obtain ⟨c, hc⟩ : ∃ c, (takeKind .comma rest₁).1 = some c := by
      simp only [continuesList, Bool.and_eq_true] at hmore
      exact Option.isSome_iff_exists.1 hmore.1
    have hafter := takeKind_append .comma rest₁
    rw [hc] at hafter ⊢
    rw [← reads_type _ _ _ ht, ← hafter] at ht
    exact ⟨⟨t, some c⟩ :: init, last, rfl, hlist.cons (kind_of_takeKind hc) ht⟩
  | case4 ts t rest₁ ht hmore =>
    obtain ⟨rfl, rfl⟩ := ok_pair_inj.1 h
    rw [← reads_type _ _ _ ht] at ht
    exact ⟨[], _, rfl, listRead_single (fun c hc ↦ kind_of_takeKind hc) ht⟩

/-! ### Enums -/

theorem nominalHead_eq_ok {expected : String} {p : Preamble} {keyword : Token}
    {head : NominalHead} : nominalHead expected p keyword ts = .ok (head, rest) ↔
      (head.preamble = p ∧ head.keyword = keyword) ∧ ∃ ts₁ ts₂ ts₃,
        expect .identifier expected ts = .ok (head.name, ts₁) ∧
        generics ts₁ = .ok (head.generics, ts₂) ∧ inheritance ts₂ = .ok (head.inheritance, ts₃) ∧
        whereClause ts₃ = (head.whereClause, rest) := by
  constructor
  · intro h
    obtain ⟨⟨name, ts₁⟩, hname, h⟩ := bind_eq_ok.1 h
    obtain ⟨⟨group, ts₂⟩, hgroup, h⟩ := bind_eq_ok.1 h
    obtain ⟨⟨clause, ts₃⟩, hclause, h⟩ := bind_eq_ok.1 h
    obtain ⟨rfl, rfl⟩ := ok_pair_inj.1 h
    exact ⟨⟨rfl, rfl⟩, ts₁, ts₂, ts₃, hname, hgroup, hclause, rfl⟩
  · obtain ⟨p', keyword', name, group, clause, conditions⟩ := head
    rintro ⟨⟨rfl, rfl⟩, ts₁, ts₂, ts₃, hname, hgroup, hclause, hwhere⟩
    refine bind_eq_ok.2 ⟨_, hname, bind_eq_ok.2 ⟨_, hgroup, bind_eq_ok.2 ⟨_, hclause, ?_⟩⟩⟩
    dsimp only
    rw [hwhere]
    rfl

/-- A head is read the same behind another preamble. -/
theorem nominalHead_withFront {expected : String} {p p' : Preamble} {keyword keyword' : Token}
    {head : NominalHead} (h : nominalHead expected p keyword ts = .ok (head, rest)) :
    nominalHead expected p' keyword' ts =
      .ok ({ head with preamble := p', keyword := keyword' }, rest) := by
  obtain ⟨-, hparts⟩ := nominalHead_eq_ok.1 h
  exact nominalHead_eq_ok.2 ⟨⟨rfl, rfl⟩, hparts⟩

theorem opening_enum_iff {head : NominalHead} :
    opening ts = .ok (.group (.enum head), rest) ↔ ∃ ts₁ ts₂,
      attributes ts = .ok (head.preamble.attributes, ts₁) ∧
      modifiers ts₁ = .ok (head.preamble.modifiers, head.keyword :: ts₂) ∧
      startOf head.keyword ts₂.head? = .enum ∧
      nominalHead "an enum name" head.preamble head.keyword ts₂ = .ok (head, rest) := by
  rw [opening_eq_ok]
  constructor
  · rintro ⟨p, ts₁, hp, h⟩
    cases h with
    | enum hstart h =>
      obtain ⟨ts₂, has, hms⟩ := preamble_eq_ok.1 hp
      obtain ⟨⟨rfl, rfl⟩, -⟩ := nominalHead_eq_ok.1 h
      exact ⟨ts₂, _, has, hms, hstart, h⟩
  · rintro ⟨ts₁, ts₂, has, hms, hstart, h⟩
    exact ⟨_, _, preamble_eq_ok.2 ⟨ts₁, has, hms⟩, .enum hstart h⟩

theorem startsItem_of_startOf {t : Token} {next : Option Token} (h : startOf t next = .enum) :
    t.startsItem = true := by
  have hkind : t.kind = .keyword := by
    unfold startOf at h
    split at h
    · simp at h
    split at h
    · simp at h
    next hkind => exact not_not.1 hkind
  have hword := text_ne_of_mem_groupWords (mem_groupWords_of_startOf (.inl h))
  simp [Token.startsItem, hkind, hword]

/-- The first token of an enum is an at-sign, a modifier or the keyword. -/
theorem startsItem_of_opening {t : Token} {head : NominalHead}
    (h : opening (t :: ts) = .ok (.group (.enum head), rest)) : t.startsItem = true := by
  obtain ⟨ts₁, ts₂, has, hms, hstart, -⟩ := opening_enum_iff.1 h
  generalize head.preamble.attributes = as at has
  generalize head.preamble.modifiers = ms at hms
  cases as with
  | cons a as =>
    obtain ⟨ha, after, hts, -⟩ := attributes_eq_cons has
    obtain ⟨rfl, -⟩ := List.cons.inj hts
    simp [Token.startsItem, ha.atSign]
  | nil =>
    obtain ⟨-, rfl⟩ := attributes_eq_nil.1 has
    cases ms with
    | cons m ms =>
      obtain ⟨after, hts, hmodifier, -⟩ := modifiers_eq_cons hms
      obtain ⟨rfl, -⟩ := List.cons.inj hts
      exact startsItem_of_isModifier hmodifier
    | nil =>
      obtain ⟨-, heq⟩ := modifiers_eq_nil.1 hms
      obtain ⟨rfl, -⟩ := List.cons.inj heq
      exact startsItem_of_startOf hstart

/-- Attributes may be left out from the front of an enum. -/
theorem opening_split {xs ys : List Attribute} {head : NominalHead}
    (h : opening ts = .ok (.group (.enum head), rest))
    (hattributes : head.preamble.attributes = xs ++ ys) : (∀ x ∈ xs, x.Standing) ∧
      ∃ t after, ts = Node.tokens xs ++ t :: after ∧ opening (t :: after) =
        .ok (.group (.enum { head with preamble.attributes := ys }), rest) := by
  obtain ⟨ts₁, ts₂, has, hms, hstart, hhead⟩ := opening_enum_iff.1 h
  rw [hattributes] at has
  obtain ⟨hxs, after, rfl, hys⟩ := attributes_split has
  have hopen : opening after = .ok (.group (.enum { head with preamble.attributes := ys }), rest) :=
    opening_enum_iff.2 ⟨ts₁, ts₂, hys, hms, hstart, nominalHead_withFront hhead⟩
  obtain ⟨t, after, rfl⟩ : ∃ t after', after = t :: after' :=
    List.exists_cons_of_length_pos (Nat.lt_of_le_of_lt (Nat.zero_le _) (append_of_opening hopen).2)
  exact ⟨hxs, t, after, rfl, hopen⟩

/-- Attributes may be put in front of an enum. -/
theorem opening_append {xs : List Attribute} {t : Token} {head : NominalHead}
    (hxs : ∀ x ∈ xs, x.Standing) (h : opening (t :: ts) = .ok (.group (.enum head), rest)) :
    ∃ head', opening (Node.tokens xs ++ t :: ts) = .ok (.group (.enum head'), rest) := by
  have hback := looksBack_of_startsItem (startsItem_of_opening h) ts
  obtain ⟨ts₁, ts₂, has, hms, hstart, hhead⟩ := opening_enum_iff.1 h
  exact ⟨{ head with preamble.attributes := xs ++ head.preamble.attributes },
    opening_enum_iff.2 ⟨ts₁, ts₂, attributes_append hxs has hback, hms, hstart,
      nominalHead_withFront hhead⟩⟩

/-- It does not matter what leads an enum. -/
theorem opening_withLeading {t : Token} {head : NominalHead}
    (h : opening (t :: ts) = .ok (.group (.enum head), rest)) (leading : Trivia) :
    ∃ head', opening (t.withLeading leading :: ts) = .ok (.group (.enum head'), rest) := by
  obtain ⟨⟨as, ms⟩, keyword, name, group, clause, conditions⟩ := head
  cases as with
  | cons a as =>
    have hsplit : a :: as = [a] ++ as := rfl
    obtain ⟨ha, u, us, hts, hafter⟩ := opening_split h hsplit
    obtain ⟨rfl, rfl⟩ := List.cons.inj hts
    exact opening_append (List.forall_mem_singleton.2 ((ha a (by simp)).withLeading leading)) hafter
  | nil =>
    obtain ⟨ts₁, ts₂, has, hms, hstart, hhead⟩ := opening_enum_iff.1 h
    obtain ⟨hat, rfl⟩ := attributes_eq_nil.1 has
    have has' : attributes (t.withLeading leading :: ts) =
        .ok ([], t.withLeading leading :: ts) := attributes_eq_nil.2 ⟨hat, rfl⟩
    cases ms with
    | cons m ms =>
      obtain ⟨after, hts, hmodifier, hdetail, hrest⟩ := modifiers_eq_cons hms
      obtain ⟨rfl, rfl⟩ := List.cons.inj hts
      have hms' : modifiers (m.name.withLeading leading :: (Node.tokens m.detail ++ after)) =
          .ok (⟨m.name.withLeading leading, m.detail⟩ :: ms, keyword :: ts₂) :=
        modifiers_cons hmodifier hdetail hrest
      exact ⟨⟨⟨[], _⟩, keyword, name, group, clause, conditions⟩,
        opening_enum_iff.2 ⟨_, ts₂, has', hms', hstart, nominalHead_withFront hhead⟩⟩
    | nil =>
      obtain ⟨hmodifier, hts⟩ := modifiers_eq_nil.1 hms
      obtain ⟨rfl, rfl⟩ := List.cons.inj hts
      have hms' : modifiers (t.withLeading leading :: ts) =
          .ok ([], t.withLeading leading :: ts) := modifiers_eq_nil.2 ⟨hmodifier, rfl⟩
      exact ⟨⟨⟨[], []⟩, t.withLeading leading, name, group, clause, conditions⟩,
        opening_enum_iff.2 ⟨_, ts, has', hms', hstart, nominalHead_withFront hhead⟩⟩

/-- An enum may go on differently behind its keyword, as long as the same token comes next. -/
theorem opening_tail {run tail tail' rest' : List Token} {head head' : NominalHead}
    (h : opening (run ++ tail) = .ok (.group (.enum head), rest))
    (hrun : Node.tokens head.preamble ++ [head.keyword] = run)
    (hnext : tail'.head?.map Token.bare = tail.head?.map Token.bare)
    (hread : nominalHead "an enum name" head.preamble head.keyword tail' = .ok (head', rest')) :
    opening (run ++ tail') = .ok (.group (.enum head'), rest') := by
  subst hrun
  obtain ⟨ts₁, ts₂, has, hms, hstart, -⟩ := opening_enum_iff.1 h
  obtain ⟨⟨hpreamble, hkeyword⟩, -⟩ := nominalHead_eq_ok.1 hread
  rw [opening_enum_iff, hpreamble, hkeyword]
  obtain ⟨⟨as, ms⟩, keyword, name, group, clause, conditions⟩ := head
  dsimp only at has hms hstart hread ⊢
  have htokens (us : List Token) : Node.tokens (Preamble.mk as ms) ++ [keyword] ++ us =
      Node.tokens as ++ (Node.tokens ms ++ keyword :: us) := by
    simp [Node.tokens]
  rw [htokens] at has ⊢
  obtain rfl := List.append_cancel_left (reads_attributes _ _ _ has)
  obtain rfl := (List.cons.inj (List.append_cancel_left (reads_modifiers _ _ _ hms))).2
  have hback (us : List Token) : looksBack (keyword :: us) = false :=
    looksBack_of_startsItem (startsItem_of_startOf hstart) us
  have hms' := modifiers_append hms (hback ts₂) hnext
  obtain ⟨hstanding, after, hafter, hnil⟩ :=
    attributes_split (by rwa [List.append_nil])
  obtain rfl := List.append_cancel_left hafter
  have hnil' : attributes (Node.tokens ms ++ keyword :: tail') =
      .ok ([], Node.tokens ms ++ keyword :: tail') := by
    cases htms : Node.tokens ms with
    | nil =>
      rw [htms] at hnil
      exact attributes_eq_nil.2 ⟨(attributes_eq_nil.1 hnil).1, rfl⟩
    | cons t run =>
      rw [htms] at hnil
      exact attributes_eq_nil.2 ⟨(attributes_eq_nil.1 hnil).1, rfl⟩
  have has' := attributes_append hstanding hnil' (looksBack_of_modifiers hms' (hback tail'))
  rw [List.append_nil] at has'
  refine ⟨_, tail', has', hms', ?_, hread⟩
  rwa [startOf_of_sameLook (.refl keyword) hnext]

end Grammar
end EnumForge
