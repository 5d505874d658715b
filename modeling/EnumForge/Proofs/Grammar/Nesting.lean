import EnumForge.Proofs.Grammar.Opening

/-!
# Nesting

How deep tokens are nested: parentheses, brackets and braces count alike.  A group is nested
positively up to the token that closes it; an expression and a raw declaration close what they open
and nothing else.  Each of the loops that look for an end keeps the depth of the tokens behind it,
so where it stops, the run before it comes out even.
-/

namespace EnumForge

/-- Whether a raw declaration may go on with a line that starts so. -/
def TokenKind.continuesRaw : TokenKind → Bool
  | leftBrace | period | equal | arrow | operator => true
  | _ => false

namespace Grammar

/-- The change of nesting over a token, where all groups count alike. -/
def groupDelta (t : Token) : Int :=
  if t.kind.opens then 1 else if t.kind.closes then -1 else 0

/-- How many groups the tokens open, less those they close. -/
def nesting : List Token → Int
  | [] => 0
  | t :: ts => groupDelta t + nesting ts

@[simp] theorem nesting_nil : nesting [] = 0 := rfl

@[simp] theorem nesting_cons (t : Token) (ts : List Token) :
    nesting (t :: ts) = groupDelta t + nesting ts := rfl

/-- The tokens of a group, from the delimiter that opens it to the one that closes it. -/
structure Balanced (run : List Token) : Prop where
  opens : ∃ t ∈ run.head?, t.kind.opens = true
  inside : ∀ before after, run = before ++ after → before ≠ [] → after ≠ [] → 0 < nesting before
  closed : nesting run = 0

/-- The tokens close the groups that they open, and no other. -/
structure Nested (run : List Token) : Prop where
  inside : ∀ before after, run = before ++ after → 0 ≤ nesting before
  closed : nesting run = 0

/-- Behind its first token a raw declaration goes over no semicolon and no line that starts
otherwise, except inside groups. -/
def Unbroken (body : List Token) : Prop :=
  ∀ before t after, body = before ++ t :: after → before ≠ [] → nesting before = 0 →
    t.kind ≠ .semicolon ∧ (t.startsLine = true → t.kind.continuesRaw = true)

/-- Why a raw declaration ends before the token. -/
def EndsRaw (t : Token) : Prop :=
  t.kind = .semicolon ∨ t.kind = .rightBrace ∨ t.kind = .endOfFile ∨
    t.startsLine = true ∧ t.kind.continuesRaw = false

/-! ### The depth at each token -/

/-- `P` holds of every token and the depth before it, where `depth` groups are open already. -/
def Stands (P : Int → Token → Prop) (depth : Int) : List Token → Prop
  | [] => True
  | t :: ts => P depth t ∧ Stands P (depth + groupDelta t) ts

theorem Stands.imp {P Q : Int → Token → Prop} (h : ∀ d t, P d t → Q d t) {depth : Int}
    {ts : List Token} (hts : Stands P depth ts) : Stands Q depth ts := by
  induction ts generalizing depth with
  | nil => trivial
  | cons t ts ih => exact ⟨h depth t hts.1, ih hts.2⟩

/-- The depth before a token is what the tokens before it amount to. -/
theorem Stands.apply {P : Int → Token → Prop} {depth : Int} {before after : List Token}
    {t : Token} (h : Stands P depth (before ++ t :: after)) : P (depth + nesting before) t := by
  induction before generalizing depth with
  | nil => simpa using h.1
  | cons u before ih => simpa [Int.add_assoc] using ih h.2

/-- A run whose tokens never stand below their start, and which ends where it started. -/
theorem Nested.of_stands {run : List Token} (h : Stands (fun d _ ↦ 0 ≤ d) 0 run)
    (hclosed : nesting run = 0) : Nested run := by
  refine ⟨fun before after hrun ↦ ?_, hclosed⟩
  cases after with
  | nil => rw [hrun, List.append_nil] at hclosed; omega
  | cons t after =>
    have hdepth := (hrun ▸ h).apply
    omega

theorem Balanced.of_stands {t : Token} {run : List Token} (hopens : t.kind.opens = true)
    (h : Stands (fun d _ ↦ 0 < d) 1 run) (hclosed : 1 + nesting run = 0) :
    Balanced (t :: run) := by
  have hdelta : groupDelta t = 1 := by simp [groupDelta, hopens]
  refine ⟨⟨t, rfl, hopens⟩, fun before after hrun hbefore hafter ↦ ?_, by simp [hdelta, hclosed]⟩
  obtain ⟨u, before, rfl⟩ := List.exists_cons_of_ne_nil hbefore
  obtain ⟨v, after, rfl⟩ := List.exists_cons_of_ne_nil hafter
  obtain ⟨rfl, rfl⟩ := List.cons.inj hrun
  have hdepth := h.apply
  simpa [hdelta] using hdepth

/-! ### What the loops keep -/

/-- The depth after a token, as the loops count it. -/
theorem cast_depth {t : Token} {depth : Nat} (h : t.kind.closes = true → 0 < depth) :
    ((if t.kind.opens then depth + 1 else if t.kind.closes then depth - 1 else depth : Nat) : Int) =
      depth + groupDelta t := by
  unfold groupDelta
  split
  · simp
  split
  next hcloses =>
    have hpos := h hcloses
    omega
  · simp

/-- One more token in front of a run that comes out even. -/
theorem stands_cons {P : Int → Token → Prop} {depth depth' : Nat} {t : Token} {run : List Token}
    (ht : P depth t) (hdepth : (depth' : Int) = depth + groupDelta t)
    (h : Stands P depth' run ∧ depth' + nesting run = 0) :
    Stands P depth (t :: run) ∧ depth + nesting (t :: run) = 0 := by
  obtain ⟨hstands, hclosed⟩ := h
  rw [hdepth] at hstands hclosed
  exact ⟨⟨ht, hstands⟩, by rw [nesting_cons]; omega⟩

/-- A group stays open up to the delimiter that closes it. -/
theorem stands_of_balancedRun {depth : Nat} (hdepth : 0 < depth) {ts run rest : List Token}
    (h : balancedRun depth ts = some (run, rest)) :
    Stands (fun d _ ↦ 0 < d) depth run ∧ depth + nesting run = 0 := by
  induction ts generalizing depth run with
  | nil => simp [balancedRun] at h
  | cons t ts ih =>
    have hpos : (0 : Int) < depth := by omega
    have hstep {depth' : Nat} (hdepth' : 0 < depth') (hcast : (depth' : Int) = depth + groupDelta t)
        (h : (balancedRun depth' ts).map (consRun t) = some (run, rest)) :
        Stands (fun d _ ↦ 0 < d) depth run ∧ depth + nesting run = 0 := by
      obtain ⟨⟨run', rest'⟩, hrun, he⟩ := Option.map_eq_some_iff.1 h
      simp only [consRun, Prod.mk.injEq] at he
      obtain ⟨rfl, rfl⟩ := he
      exact stands_cons hpos hcast (ih hdepth' hrun)
    unfold balancedRun at h
    split at h
    next hopens => exact hstep (Nat.succ_pos _) (by simp [groupDelta, hopens]) h
    next hopens =>
      split at h
      next hcloses =>
        have hdelta : groupDelta t = -1 := by simp [groupDelta, hopens, hcloses]
        split at h
        next hone =>
          simp only [Option.some.injEq, Prod.mk.injEq] at h
          obtain ⟨rfl, rfl⟩ := h
          exact ⟨⟨hpos, trivial⟩, by simp [hdelta]; omega⟩
        next hmore => exact hstep (by omega) (by omega) h
      next hcloses => exact hstep hdepth (by simp [groupDelta, hopens, hcloses]) h

/-- An expression ends before it closes a group that it did not open. -/
theorem stands_of_exprRun {depth : Nat} {last : Option Token} {ts run rest : List Token}
    (h : exprRun depth last ts = some (run, rest)) :
    Stands (fun d _ ↦ 0 ≤ d) depth run ∧ depth + nesting run = 0 := by
  induction ts generalizing depth last run with
  | nil =>
    unfold exprRun at h
    split at h
    next hdepth =>
      simp only [Option.some.injEq, Prod.mk.injEq] at h
      obtain ⟨rfl, rfl⟩ := h
      exact ⟨trivial, by simp [hdepth]⟩
    next => simp at h
  | cons t ts ih =>
    unfold exprRun at h
    split at h
    next hend =>
      simp only [Option.some.injEq, Prod.mk.injEq] at h
      obtain ⟨rfl, rfl⟩ := h
      exact ⟨trivial, by simp [hend.1]⟩
    next hgo =>
      -- Outside groups a closing delimiter is a stop, so the depth does not fall below zero.
      have hpos (hcloses : t.kind.closes = true) : 0 < depth :=
        Nat.pos_of_ne_zero fun hdepth ↦ hgo ⟨hdepth, endsExpr_of_closes hcloses⟩
      obtain ⟨⟨run', rest'⟩, hrun, he⟩ := Option.map_eq_some_iff.1 h
      simp only [consRun, Prod.mk.injEq] at he
      obtain ⟨rfl, rfl⟩ := he
      exact stands_cons (Int.natCast_nonneg depth) (cast_depth hpos) (ih hrun)

/-- A raw declaration goes on over what does not end it, and stops before what does. -/
theorem stands_of_rawRun {depth : Nat} {ts run rest : List Token}
    (h : rawRun depth ts = .ok (run, rest)) :
    (Stands (fun d t ↦ 0 ≤ d ∧ (d = 0 → endsRaw t = false)) depth run ∧
      depth + nesting run = 0) ∧ ∀ t ∈ rest.head?, endsRaw t = true := by
  induction ts generalizing depth run with
  | nil =>
    unfold rawRun at h
    split at h
    next hdepth =>
      simp only [Except.ok.injEq, Prod.mk.injEq] at h
      obtain ⟨rfl, rfl⟩ := h
      exact ⟨⟨trivial, by simp [hdepth]⟩, by simp⟩
    next => simp at h
  | cons t ts ih =>
    unfold rawRun at h
    split at h
    next => simp at h
    next hopened =>
      split at h
      next hend =>
        simp only [Except.ok.injEq, Prod.mk.injEq] at h
        obtain ⟨rfl, rfl⟩ := h
        exact ⟨⟨trivial, by simp [hend.1]⟩, by simp [hend.2]⟩
      next hgo =>
        have hends : (depth : Int) = 0 → endsRaw t = false := by
          intro hzero
          have hzero : depth = 0 := by omega
          simpa [hzero] using hgo
        dsimp only at h
        have hcast := cast_depth (depth_pos_of_closes hopened hgo)
        generalize (if t.kind.opens then depth + 1
          else if t.kind.closes then depth - 1 else depth) = depth' at h hcast
        cases hrun : rawRun depth' ts with
        | error e => simp [hrun, Except.map] at h
        | ok r =>
          obtain ⟨run', rest'⟩ := r
          simp only [hrun, Except.map, consRun, Except.ok.injEq, Prod.mk.injEq] at h
          obtain ⟨rfl, rfl⟩ := h
          obtain ⟨hstands, hrest⟩ := ih hrun
          exact ⟨stands_cons ⟨Int.natCast_nonneg depth, hends⟩ hcast hstands, hrest⟩

/-! ### What is read -/

theorem balanced_of_groupAt {left : TokenKind} (hleft : left.opens = true) {ts rest : List Token}
    {group : Option (List Token)} (h : groupAt left ts = .ok (group, rest)) :
    ∀ run ∈ group, Balanced run := by
  unfold groupAt at h
  split at h
  next =>
    obtain ⟨rfl, -⟩ := ok_pair_inj.1 h
    simp
  next t ts =>
    split at h
    next hkind =>
      split at h
      next run rest' hrun =>
        obtain ⟨rfl, -⟩ := ok_pair_inj.1 h
        obtain ⟨hstands, hclosed⟩ := stands_of_balancedRun (by omega) hrun
        rintro _ ⟨⟩
        exact .of_stands (hkind ▸ hleft) hstands hclosed
      next => simp at h
    next =>
      obtain ⟨rfl, -⟩ := ok_pair_inj.1 h
      simp

theorem balanced_of_argumentsOf {name : Token} {ts rest : List Token}
    {arguments : Option (List Token)} (h : argumentsOf name ts = .ok (arguments, rest)) :
    ∀ run ∈ arguments, Balanced run := by
  unfold argumentsOf at h
  split at h
  · exact balanced_of_groupAt rfl h
  · obtain ⟨rfl, -⟩ := ok_pair_inj.1 h
    simp

theorem balanced_of_attributes {ts rest : List Token} {as : List Attribute}
    (h : attributes ts = .ok (as, rest)) : ∀ a ∈ as, ∀ run ∈ a.arguments, Balanced run := by
  fun_induction attributes ts generalizing as rest with
  | case1 | case5 =>
    obtain ⟨rfl, -⟩ := ok_pair_inj.1 h
    simp
  | case2 | case3 => simp at h
  | case4 t ts _ a rest₁ first as₁ rest₂ _ ih =>
    obtain ⟨rfl, -⟩ := ok_pair_inj.1 h
    refine List.forall_mem_cons.2 ⟨?_, ih ‹_›⟩
    unfold attributeAfter at first
    split at first
    · simp at first
    split at first
    · obtain ⟨⟨arguments, ts'⟩, harguments, first⟩ := bind_eq_ok.1 first
      obtain ⟨rfl, -⟩ := ok_pair_inj.1 first
      exact balanced_of_argumentsOf harguments
    · simp at first

theorem balanced_of_modifiers {ts rest : List Token} {ms : List Modifier}
    (h : modifiers ts = .ok (ms, rest)) : ∀ m ∈ ms, ∀ run ∈ m.detail, Balanced run := by
  fun_induction modifiers ts generalizing ms rest with
  | case1 | case5 =>
    obtain ⟨rfl, -⟩ := ok_pair_inj.1 h
    simp
  | case2 | case3 => simp at h
  | case4 t ts _ detail rest₁ hdetail ms₁ rest₂ _ ih =>
    obtain ⟨rfl, -⟩ := ok_pair_inj.1 h
    exact List.forall_mem_cons.2 ⟨balanced_of_argumentsOf hdetail, ih ‹_›⟩

theorem nested_of_expr {ts rest : List Token} {e : Expr} (h : expr ts = .ok (e, rest)) :
    Nested (Node.tokens e) := by
  unfold expr at h
  split at h
  · simp at h
  · simp at h
  next run rest' _ hrun =>
    obtain ⟨rfl, -⟩ := ok_pair_inj.1 h
    obtain ⟨hstands, hclosed⟩ := stands_of_exprRun hrun
    rw [tokens_exprOfTokens]
    exact .of_stands hstands (by simpa using hclosed)

theorem nested_of_initializer {ts rest : List Token} {init : Option Initializer}
    (h : initializer ts = .ok (init, rest)) : ∀ i ∈ init, Nested (Node.tokens i.value) := by
  unfold initializer at h
  split at h
  next =>
    obtain ⟨rfl, -⟩ := ok_pair_inj.1 h
    simp
  split at h
  next =>
    obtain ⟨⟨value, ts'⟩, hvalue, h⟩ := bind_eq_ok.1 h
    obtain ⟨rfl, -⟩ := ok_pair_inj.1 h
    rintro _ ⟨⟩
    exact nested_of_expr hvalue
  next =>
    obtain ⟨rfl, -⟩ := ok_pair_inj.1 h
    simp

theorem even_of_caseElement {ts rest : List Token} {e : CaseElement}
    (h : caseElement ts = .ok (e, rest)) :
    (∀ run ∈ e.associatedValue, Balanced run) ∧
      ∀ i ∈ e.rawValue, Nested (Node.tokens i.value) := by
  obtain ⟨⟨name, ts₁⟩, -, h⟩ := bind_eq_ok.1 h
  obtain ⟨⟨value, ts₂⟩, hvalue, h⟩ := bind_eq_ok.1 h
  obtain ⟨⟨raw, ts₃⟩, hraw, h⟩ := bind_eq_ok.1 h
  obtain ⟨rfl, -⟩ := ok_pair_inj.1 h
  exact ⟨balanced_of_groupAt rfl hvalue, nested_of_initializer hraw⟩

theorem even_of_caseElements {ts rest : List Token} {es : List CaseElement}
    (h : caseElements ts = .ok (es, rest)) :
    ∀ e ∈ es, (∀ run ∈ e.associatedValue, Balanced run) ∧
      ∀ i ∈ e.rawValue, Nested (Node.tokens i.value) := by
  fun_induction caseElements ts generalizing es rest with
  | case1 | case2 => simp at h
  | case3 ts e rest₁ he _ es₁ rest₂ _ ih =>
    obtain ⟨rfl, -⟩ := ok_pair_inj.1 h
    exact List.forall_mem_cons.2 ⟨even_of_caseElement he, ih ‹_›⟩
  | case4 ts e rest₁ he =>
    obtain ⟨rfl, -⟩ := ok_pair_inj.1 h
    exact List.forall_mem_singleton.2 (even_of_caseElement he)

theorem even_of_caseDecl {p : Preamble} {keyword : Token} {ts rest : List Token} {d : CaseDecl}
    (h : caseDecl p keyword ts = .ok (d, rest)) :
    ∀ e ∈ d.elements, (∀ run ∈ e.associatedValue, Balanced run) ∧
      ∀ i ∈ e.rawValue, Nested (Node.tokens i.value) := by
  obtain ⟨⟨es, ts₁⟩, helements, h⟩ := bind_eq_ok.1 h
  dsimp only at h
  split at h
  · obtain ⟨rfl, -⟩ := ok_pair_inj.1 h
    exact even_of_caseElements helements
  · simp [throw, throwThe, MonadExceptOf.throw] at h

theorem endsRaw_iff {t : Token} : endsRaw t = true ↔
    t.kind = .semicolon ∨ t.kind = .rightBrace ∨
      t.startsLine = true ∧ t.kind.continuesRaw = false := by
  unfold endsRaw
  cases t.kind <;> simp [TokenKind.continuesRaw]

/-- A raw declaration comes out even, is not broken off too late, and not too early. -/
theorem even_of_rawDecl {p : Preamble} {ts rest : List Token} {d : RawDecl}
    (h : rawDecl p ts = .ok (d, rest)) :
    Nested d.body ∧ Unbroken d.body ∧ ∀ t ∈ rest.head?, endsRaw t = true := by
  unfold rawDecl at h
  split at h
  · simp at h
  split at h
  · simp at h
  split at h
  · simp at h
  next t ts _ hcloses =>
    split at h
    next run rest' hrun =>
      obtain ⟨rfl, rfl⟩ := ok_pair_inj.1 h
      obtain ⟨⟨hstands, hclosed⟩, hrest⟩ := stands_of_rawRun hrun
      have hdelta : ((if t.kind.opens then 1 else 0 : Nat) : Int) = groupDelta t := by
        rw [groupDelta, if_neg hcloses]
        split <;> rfl
      rw [hdelta] at hstands hclosed
      refine ⟨.of_stands ⟨Int.le_refl 0, ?_⟩ hclosed, ?_, hrest⟩
      · rw [Int.zero_add]
        exact hstands.imp fun d u hu ↦ hu.1
      · intro before u after hbody hbefore hdepth
        obtain ⟨v, before, rfl⟩ := List.exists_cons_of_ne_nil hbefore
        obtain ⟨rfl, rfl⟩ := List.cons.inj hbody
        have hends := hstands.apply.2 (by simpa using hdepth)
        rw [← Bool.not_eq_true, endsRaw_iff] at hends
        simp only [not_or, not_and, Bool.not_eq_false] at hends
        exact ⟨hends.1, hends.2.2⟩
    next => simp at h
    next => simp at h

theorem even_of_bindingDecl {p : Preamble} {keyword : Token} {ts rest : List Token}
    {d : BindingDecl} (h : bindingDecl p keyword ts = .ok (d, rest)) :
    (∀ i ∈ d.initializer, Nested (Node.tokens i.value)) ∧ ∀ run ∈ d.accessors, Balanced run := by
  obtain ⟨⟨name, ts₁⟩, -, h⟩ := bind_eq_ok.1 h
  obtain ⟨⟨ann, ts₂⟩, -, h⟩ := bind_eq_ok.1 h
  obtain ⟨⟨init, ts₃⟩, hinit, h⟩ := bind_eq_ok.1 h
  obtain ⟨⟨acc, ts₄⟩, hacc, h⟩ := bind_eq_ok.1 h
  dsimp only at h
  split at h
  · obtain ⟨rfl, -⟩ := ok_pair_inj.1 h
    exact ⟨nested_of_initializer hinit, balanced_of_groupAt rfl hacc⟩
  · simp [throw, throwThe, MonadExceptOf.throw] at h

end Grammar

end EnumForge
