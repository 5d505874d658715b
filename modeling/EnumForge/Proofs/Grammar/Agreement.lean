import EnumForge.Grammar.Run
import EnumForge.Proofs.Grammar.Likeness

/-!
# What a reader looks at

A reader sees the kind and the text of a token and whether it starts a line.  The trivia after a
token counts only before an opening parenthesis or before an opening brace on the same line.  So two
token lists that look the same are read alike.  They may also part where the reader stops, as long
as both go on with a token that it stops before.
-/

namespace EnumForge

/-- What a reader sees of a token on its own. -/
structure Token.SameLook (t u : Token) : Prop where
  kind : u.kind = t.kind
  text : u.text = t.text
  startsLine : u.startsLine = t.startsLine

namespace Token

theorem SameLook.refl (t : Token) : t.SameLook t := ⟨rfl, rfl, rfl⟩

theorem SameLook.symm {t u : Token} (h : t.SameLook u) : u.SameLook t :=
  ⟨h.kind.symm, h.text.symm, h.startsLine.symm⟩

theorem SameLook.bare {t u : Token} (h : t.SameLook u) : u.bare = t.bare := by
  rw [Token.bare, Token.bare, h.kind, h.text]

theorem SameLook.like {t u : Token} (h : t.SameLook u) : Node.Like t u := h.bare.symm

theorem SameLook.isKeyword {t u : Token} (h : t.SameLook u) (text : String) :
    u.isKeyword text = t.isKeyword text := by
  rw [Token.isKeyword, Token.isKeyword, h.kind, h.text]

/-- Whether a declaration may start with the token. -/
def startsItem (t : Token) : Bool :=
  t.kind == .atSign || t.kind == .identifier || t.kind == .keyword && t.text != "where"

end Token

namespace Grammar

/-! ### Lists that look the same -/

/-- Whether the trivia before the next token counts. -/
def looksBack (ts : List Token) : Bool :=
  ts.head?.any fun t ↦ t.kind == .leftParen || t.kind == .leftBrace && !t.startsLine

/-- Where two lists part: a reader that stops before the one stops before the other. -/
inductive Edge : List Token → List Token → Prop where
  | nil : Edge [] []
  | same {t u : Token} {ts us : List Token} (h : t.SameLook u) : Edge (t :: ts) (u :: us)
  | line {t u : Token} {ts us : List Token} (hu : u.startsItem = true)
      (hline : u.startsLine = true) : Edge (t :: ts) (u :: us)
  | inline {t u : Token} {ts us : List Token} (hu : u.startsItem = true)
      (ht : t.startsItem = true) (hline : t.startsLine = false) : Edge (t :: ts) (u :: us)

/-- Lists that look the same up to `bs` and `bs'`. -/
inductive Agree (bs bs' : List Token) : List Token → List Token → Prop where
  | edge : Agree bs bs' bs bs'
  | cons {t u : Token} {ts us : List Token} (look : t.SameLook u)
      (trailing : u.trailing.isEmpty = t.trailing.isEmpty ∨
        looksBack ts = false ∧ looksBack us = false)
      (h : Agree bs bs' ts us) : Agree bs bs' (t :: ts) (u :: us)

namespace Agree

variable {bs bs' ts us : List Token} {t : Token}

theorem toEdge (hb : Edge bs bs') (h : Agree bs bs' ts us) : Edge ts us := by
  cases h with
  | edge => exact hb
  | cons look _ _ => exact .same look

/-- A token before the parting has a counterpart. -/
theorem uncons (h : Agree bs bs' (t :: ts) us) (hlen : bs.length ≤ ts.length) :
    ∃ u us', us = u :: us' ∧ t.SameLook u ∧ (u.trailing.isEmpty = t.trailing.isEmpty ∨
      looksBack ts = false ∧ looksBack us' = false) ∧ Agree bs bs' ts us' := by
  cases h with
  | edge =>
    rw [List.length_cons] at hlen
    omega
  | cons look trailing h => exact ⟨_, _, rfl, look, trailing, h⟩

theorem append_left (run : List Token) (h : Agree bs bs' ts us) :
    Agree bs bs' (run ++ ts) (run ++ us) := by
  induction run with
  | nil => exact h
  | cons t run ih => exact .cons (.refl t) (.inl rfl) ih

end Agree

/-- Token runs that look the same, with the lists that follow them. -/
structure RunsAlike (bs bs' : List Token) (r r' : List Token × List Token) : Prop where
  run : r'.1.map Token.bare = r.1.map Token.bare
  rest : Agree bs bs' r.2 r'.2

theorem RunsAlike.consRun {bs bs' : List Token} {r r' : List Token × List Token} {t u : Token}
    (h : RunsAlike bs bs' r r') (look : t.SameLook u) :
    RunsAlike bs bs' (Grammar.consRun t r) (Grammar.consRun u r') := by
  refine ⟨?_, h.rest⟩
  simp only [Grammar.consRun, List.map_cons, h.run, look.bare]

/-! ### Runs -/

section

variable {bs bs' ts us run rest : List Token}

theorem length_le_of_append (h : run ++ rest = ts) : rest.length ≤ ts.length := by
  rw [← h, List.length_append]
  omega

theorem alike_map_consRun {o o' : Option (List Token × List Token)} {t u : Token}
    (look : t.SameLook u) (h : o.map (consRun t) = some (run, rest))
    (ih : ∀ r, o = some (r, rest) → ∃ r', o' = some r' ∧ RunsAlike bs bs' (r, rest) r') :
    ∃ r', o'.map (consRun u) = some r' ∧ RunsAlike bs bs' (run, rest) r' := by
  obtain ⟨⟨r, s⟩, ho, he⟩ := Option.map_eq_some_iff.1 h
  simp only [consRun, Prod.mk.injEq] at he
  obtain ⟨rfl, rfl⟩ := he
  obtain ⟨r', ho', halike⟩ := ih r ho
  refine ⟨consRun u r', ?_, halike.consRun look⟩
  rw [ho', Option.map_some]

theorem length_le_of_map_consRun {o : Option (List Token × List Token)} {t : Token}
    (h : o.map (consRun t) = some (run, rest))
    (happ : ∀ r s, o = some (r, s) → r ++ s = ts) : rest.length ≤ ts.length := by
  obtain ⟨⟨r, s⟩, ho, he⟩ := Option.map_eq_some_iff.1 h
  simp only [consRun, Prod.mk.injEq] at he
  rw [← he.2]
  exact length_le_of_append (happ r s ho)

theorem alike_balancedRun {depth : Nat} (hagree : Agree bs bs' ts us)
    (h : balancedRun depth ts = some (run, rest)) (hlen : bs.length ≤ rest.length) :
    ∃ r', balancedRun depth us = some r' ∧ RunsAlike bs bs' (run, rest) r' := by
  induction ts generalizing depth us run rest with
  | nil => simp [balancedRun] at h
  | cons t ts ih =>
    have hstep {d : Nat} (hd : (balancedRun d ts).map (consRun t) = some (run, rest)) :
        ∃ u us', us = u :: us' ∧ t.SameLook u ∧
          ∃ r', (balancedRun d us').map (consRun u) = some r' ∧
            RunsAlike bs bs' (run, rest) r' := by
      have hle := length_le_of_map_consRun hd fun _ _ ↦ append_of_balancedRun
      obtain ⟨u, us', rfl, look, -, hagree⟩ := hagree.uncons (Nat.le_trans hlen hle)
      exact ⟨u, us', rfl, look, alike_map_consRun look hd fun r hr ↦ ih hagree hr hlen⟩
    rw [balancedRun] at h
    split at h
    next hopens =>
      obtain ⟨u, us', rfl, look, hrun⟩ := hstep h
      rwa [balancedRun, look.kind, if_pos hopens]
    next hopens =>
      split at h
      next hcloses =>
        split at h
        next hdepth =>
          simp only [Option.some.injEq, Prod.mk.injEq] at h
          obtain ⟨rfl, rfl⟩ := h
          obtain ⟨u, us', rfl, look, -, hagree⟩ := hagree.uncons hlen
          refine ⟨([u], us'), ?_, ?_, hagree⟩
          · rw [balancedRun, look.kind, if_neg hopens, if_pos hcloses, if_pos hdepth]
          · simp [look.bare]
        next hdepth =>
          obtain ⟨u, us', rfl, look, hrun⟩ := hstep h
          rwa [balancedRun, look.kind, if_neg hopens, if_pos hcloses, if_neg hdepth]
      next hcloses =>
        obtain ⟨u, us', rfl, look, hrun⟩ := hstep h
        rwa [balancedRun, look.kind, if_neg hopens, if_neg hcloses]

theorem angleDelta_of_sameLook {t u : Token} (look : t.SameLook u) :
    angleDelta u = angleDelta t := by
  rw [angleDelta, angleDelta, look.kind, look.text]

theorem alike_angleRun {depth : Int} (hagree : Agree bs bs' ts us)
    (h : angleRun depth ts = some (run, rest)) (hlen : bs.length ≤ rest.length) :
    ∃ r', angleRun depth us = some r' ∧ RunsAlike bs bs' (run, rest) r' := by
  induction ts generalizing depth us run rest with
  | nil => simp [angleRun] at h
  | cons t ts ih =>
    rw [angleRun] at h
    split at h
    next hdepth =>
      simp only [Option.some.injEq, Prod.mk.injEq] at h
      obtain ⟨rfl, rfl⟩ := h
      obtain ⟨u, us', rfl, look, -, hagree⟩ := hagree.uncons hlen
      refine ⟨([u], us'), ?_, ?_, hagree⟩
      · rw [angleRun, angleDelta_of_sameLook look, if_pos hdepth]
      · simp [look.bare]
    next hdepth =>
      have hle := length_le_of_map_consRun h fun _ _ ↦ append_of_angleRun
      obtain ⟨u, us', rfl, look, -, hagree⟩ := hagree.uncons (Nat.le_trans hlen hle)
      rw [angleRun, angleDelta_of_sameLook look, if_neg hdepth]
      exact alike_map_consRun look h fun r hr ↦ ih hagree hr hlen

theorem endsType_of_sameLook {t u : Token} (look : t.SameLook u) : endsType u = endsType t := by
  unfold endsType
  rw [look.kind, look.isKeyword]

theorem endsType_of_startsItem {t : Token} (h : t.startsItem = true) : endsType t = false := by
  simp only [Token.startsItem, Bool.or_eq_true, beq_iff_eq, Bool.and_eq_true, bne_iff_ne] at h
  rcases h with (h | h) | ⟨h, htext⟩ <;> simp [endsType, h, Token.isKeyword]
  exact htext

/-- A type that has begun stops on both sides. -/
theorem endsType_of_edge {t u : Token} {ts us : List Token} (hedge : Edge (t :: ts) (u :: us))
    (h : (endsType t || t.startsLine) = true) : (endsType u || u.startsLine) = true := by
  cases hedge with
  | same look => rw [endsType_of_sameLook look, look.startsLine, h]
  | line _ hline => rw [hline, Bool.or_true]
  | inline _ ht hline => simp [endsType_of_startsItem ht, hline] at h

theorem typeDelta_of_sameLook {t u : Token} (look : t.SameLook u) : typeDelta u = typeDelta t := by
  unfold typeDelta
  rw [look.kind, angleDelta_of_sameLook look]

theorem Edge.nil_iff (h : Edge ts us) : ts = [] ↔ us = [] := by
  cases h <;> simp

theorem alike_typeRun {depth : Int} {started : Bool} (hb : Edge bs bs')
    (hagree : Agree bs bs' ts us) (h : typeRun depth started ts = some (run, rest))
    (hlen : bs.length ≤ rest.length) (hstart : started = true ∨ run ≠ []) :
    ∃ r', typeRun depth started us = some r' ∧ RunsAlike bs bs' (run, rest) r' := by
  induction ts generalizing depth started us run rest with
  | nil =>
    have hus : us = [] := (hagree.toEdge hb).nil_iff.1 rfl
    subst hus
    refine ⟨_, h, rfl, ?_⟩
    rw [typeRun] at h
    split at h
    · simp only [Option.some.injEq, Prod.mk.injEq] at h
      obtain ⟨rfl, rfl⟩ := h
      exact hagree
    · simp at h
  | cons t ts ih =>
    rw [typeRun] at h
    split at h
    next hstop =>
      simp only [Option.some.injEq, Prod.mk.injEq] at h
      obtain ⟨rfl, rfl⟩ := h
      obtain rfl : started = true := by simpa using hstart
      obtain ⟨hdepth, hstop⟩ := hstop
      have hedge := hagree.toEdge hb
      cases us with
      | nil => cases hedge
      | cons u us =>
        rw [Bool.true_and] at hstop
        refine ⟨([], u :: us), ?_, rfl, hagree⟩
        rw [typeRun, if_pos]
        exact ⟨hdepth, by simpa using endsType_of_edge hedge hstop⟩
    next hgo =>
      have hle := length_le_of_map_consRun h fun _ _ ↦ append_of_typeRun
      obtain ⟨u, us', rfl, look, -, hagree⟩ := hagree.uncons (Nat.le_trans hlen hle)
      rw [typeRun, endsType_of_sameLook look, look.startsLine, if_neg hgo,
        typeDelta_of_sameLook look]
      exact alike_map_consRun look h fun r hr ↦ ih hagree hr hlen (.inl rfl)

/-- How the tokens before two lists may differ for an expression. -/
def LastAlike (last last' : Option Token) (ts us : List Token) : Prop :=
  last'.isSome = last.isSome ∧
    (last'.any (fun l ↦ !l.trailing.isEmpty) = last.any (fun l ↦ !l.trailing.isEmpty) ∨
      looksBack ts = false ∧ looksBack us = false)

theorem endsExpr_leftBrace {last : Option Token} {t : Token} (h : t.kind = .leftBrace) :
    endsExpr last t =
      (last.isSome && t.startsLine || last.any fun l ↦ !l.trailing.isEmpty) := by
  unfold endsExpr
  rw [h]
  cases last <;> simp

theorem endsExpr_of_sameLook {last last' : Option Token} {t u : Token} (look : t.SameLook u)
    (hlast : LastAlike last last' (t :: ts) (u :: us)) : endsExpr last' u = endsExpr last t := by
  obtain ⟨hsome, htrailing⟩ := hlast
  by_cases hbrace : t.kind = .leftBrace
  · rw [endsExpr_leftBrace hbrace, endsExpr_leftBrace (look.kind.trans hbrace), hsome,
      look.startsLine]
    rcases htrailing with htrailing | ⟨hback, -⟩
    · rw [htrailing]
    · have hline : t.startsLine = true := by simpa [looksBack, hbrace] using hback
      cases last <;> cases last' <;> simp_all
  · have hother (l : Option Token) (v : Token) (hv : v.kind ≠ .leftBrace) :
        endsExpr l v = match v.kind with
          | .comma | .semicolon | .rightBrace | .rightParen | .rightSquare => true
          | .period | .operator => false
          | _ => l.isSome && v.startsLine := by
      unfold endsExpr
      cases hk : v.kind <;> simp_all
    rw [hother _ _ hbrace, hother _ _ (look.kind ▸ hbrace), look.kind, look.startsLine, hsome]

theorem endsExpr_of_startsItem {last : Option Token} {t : Token} (h : t.startsItem = true) :
    endsExpr last t = (last.isSome && t.startsLine) := by
  simp only [Token.startsItem, Bool.or_eq_true, beq_iff_eq, Bool.and_eq_true] at h
  rcases h with (h | h) | ⟨h, -⟩ <;> simp [endsExpr, h]

/-- An expression that has begun stops on both sides. -/
theorem endsExpr_of_edge {last last' : Option Token} {t u : Token}
    (hedge : Edge (t :: ts) (u :: us)) (hlast : LastAlike last last' (t :: ts) (u :: us))
    (hsome : last.isSome = true) (h : endsExpr last t = true) : endsExpr last' u = true := by
  cases hedge with
  | same look => rw [endsExpr_of_sameLook look hlast, h]
  | line hu hline => rw [endsExpr_of_startsItem hu, hline, hlast.1, hsome, Bool.and_self]
  | inline _ ht hline => simp [endsExpr_of_startsItem ht, hline] at h

theorem alike_exprRun {depth : Nat} {last last' : Option Token} (hb : Edge bs bs')
    (hagree : Agree bs bs' ts us) (hlast : LastAlike last last' ts us)
    (h : exprRun depth last ts = some (run, rest)) (hlen : bs.length ≤ rest.length)
    (hstart : last.isSome = true ∨ run ≠ []) :
    ∃ r', exprRun depth last' us = some r' ∧ RunsAlike bs bs' (run, rest) r' := by
  induction ts generalizing depth last last' us run rest with
  | nil =>
    have hus : us = [] := (hagree.toEdge hb).nil_iff.1 rfl
    subst hus
    rw [exprRun] at h ⊢
    split at h
    next hdepth =>
      simp only [Option.some.injEq, Prod.mk.injEq] at h
      obtain ⟨rfl, rfl⟩ := h
      exact ⟨_, if_pos hdepth, rfl, hagree⟩
    next => simp at h
  | cons t ts ih =>
    rw [exprRun] at h
    split at h
    next hstop =>
      simp only [Option.some.injEq, Prod.mk.injEq] at h
      obtain ⟨rfl, rfl⟩ := h
      obtain ⟨hdepth, hstop⟩ := hstop
      have hedge := hagree.toEdge hb
      -- At its very start an expression goes on over a new line, hence `hstart`.
      cases us with
      | nil => cases hedge
      | cons u us =>
        refine ⟨([], u :: us), ?_, rfl, hagree⟩
        rw [exprRun, if_pos ⟨hdepth, endsExpr_of_edge hedge hlast (by simpa using hstart) hstop⟩]
    next hgo =>
      have hle := length_le_of_map_consRun h fun _ _ ↦ append_of_exprRun
      obtain ⟨u, us', rfl, look, htrailing, hagree⟩ := hagree.uncons (Nat.le_trans hlen hle)
      rw [exprRun, endsExpr_of_sameLook look hlast, if_neg hgo, look.kind]
      have hlast : LastAlike (some t) (some u) ts us' := by
        refine ⟨rfl, ?_⟩
        simpa using htrailing
      exact alike_map_consRun look h fun r hr ↦ ih hagree hlast hr hlen (.inl rfl)

theorem endsRaw_of_sameLook {t u : Token} (look : t.SameLook u) : endsRaw u = endsRaw t := by
  unfold endsRaw
  rw [look.kind, look.startsLine]

theorem endsRaw_of_startsItem {t : Token} (h : t.startsItem = true) :
    endsRaw t = t.startsLine := by
  simp only [Token.startsItem, Bool.or_eq_true, beq_iff_eq, Bool.and_eq_true] at h
  rcases h with (h | h) | ⟨h, -⟩ <;> simp [endsRaw, h]

theorem closes_of_startsItem {t : Token} (h : t.startsItem = true) : t.kind.closes = false := by
  simp only [Token.startsItem, Bool.or_eq_true, beq_iff_eq, Bool.and_eq_true] at h
  rcases h with (h | h) | ⟨h, -⟩ <;> simp [TokenKind.closes, h]

/-- A raw declaration stops on both sides. -/
theorem endsRaw_of_edge {t u : Token} (hedge : Edge (t :: ts) (u :: us))
    (hclosed : ¬(t.kind = .rightParen ∨ t.kind = .rightSquare)) (h : endsRaw t = true) :
    endsRaw u = true ∧ ¬(u.kind = .rightParen ∨ u.kind = .rightSquare) := by
  cases hedge with
  | same look =>
    rw [endsRaw_of_sameLook look, look.kind]
    exact ⟨h, hclosed⟩
  | line hu hline =>
    rw [endsRaw_of_startsItem hu]
    refine ⟨hline, ?_⟩
    have hcloses := closes_of_startsItem hu
    rintro (hkind | hkind) <;> simp [hkind, TokenKind.closes] at hcloses
  | inline _ ht hline => simp [endsRaw_of_startsItem ht, hline] at h

theorem alike_rawRun {depth : Nat} (hb : Edge bs bs') (hagree : Agree bs bs' ts us)
    (h : rawRun depth ts = .ok (run, rest)) (hlen : bs.length ≤ rest.length) :
    ∃ r', rawRun depth us = .ok r' ∧ RunsAlike bs bs' (run, rest) r' := by
  induction ts generalizing depth us run rest with
  | nil =>
    have hus : us = [] := (hagree.toEdge hb).nil_iff.1 rfl
    subst hus
    rw [rawRun] at h ⊢
    split at h
    next hdepth =>
      simp only [Except.ok.injEq, Prod.mk.injEq] at h
      obtain ⟨rfl, rfl⟩ := h
      exact ⟨_, if_pos hdepth, rfl, hagree⟩
    next => simp at h
  | cons t ts ih =>
    rw [rawRun] at h
    split at h
    · simp at h
    next hclosed =>
      split at h
      next hstop =>
        simp only [Except.ok.injEq, Prod.mk.injEq] at h
        obtain ⟨rfl, rfl⟩ := h
        obtain ⟨hdepth, hstop⟩ := hstop
        have hedge := hagree.toEdge hb
        cases us with
        | nil => cases hedge
        | cons u us =>
          obtain ⟨hstop', hclosed'⟩ :=
            endsRaw_of_edge hedge (fun hkind ↦ hclosed ⟨hdepth, hkind⟩) hstop
          refine ⟨([], u :: us), ?_, rfl, hagree⟩
          rw [rawRun, if_neg fun hkind ↦ hclosed' hkind.2, if_pos ⟨hdepth, hstop'⟩]
      next hgo =>
        dsimp only at h
        cases hr : rawRun (if t.kind.opens then depth + 1
            else if t.kind.closes then depth - 1 else depth) ts with
        | error e => simp [hr, Except.map] at h
        | ok r =>
          obtain ⟨r, s⟩ := r
          simp only [hr, Except.map, consRun, Except.ok.injEq, Prod.mk.injEq] at h
          obtain ⟨rfl, rfl⟩ := h
          have hle := length_le_of_append (append_of_rawRun hr)
          obtain ⟨u, us', rfl, look, -, hagree⟩ := hagree.uncons (Nat.le_trans hlen hle)
          obtain ⟨r', hr', halike⟩ := ih hagree hr hlen
          refine ⟨consRun u r', ?_, halike.consRun look⟩
          rw [rawRun, endsRaw_of_sameLook look, look.kind, if_neg hclosed, if_neg hgo]
          dsimp only
          rw [hr']
          rfl

end

end Grammar

end EnumForge
