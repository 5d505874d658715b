import EnumForge.Grammar.Leaf
import EnumForge.Proofs.Grammar.Agreement

/-!
# Declarations without members, read alike

Each reader of a clause or of a declaration without members takes from two lists that look the same
nodes that are alike, and leaves lists that look the same.  The lists may part behind a
declaration; nothing that is looked at further ahead may then lie behind the parting.
-/

namespace EnumForge.Grammar

open Node (Like)

/-- A reader takes a node like `a`, and leaves a list that looks like `rest`. -/
def ReadsAlike {α : Type} [Node α] (bs bs' : List Token) (a : α) (rest : List Token)
    (p : Reading (α × List Token)) : Prop :=
  ∃ a' rest', p = .ok (a', rest') ∧ Like a a' ∧ Agree bs bs' rest rest'

/-- Whether no declaration starts with a token of the kind. -/
def inner (kind : TokenKind) : Bool :=
  kind != .atSign && kind != .identifier && kind != .keyword

section

variable {bs bs' ts us rest : List Token}

theorem kind_ne_of_startsItem {k : TokenKind} (hkind : inner k = true) {t : Token}
    (ht : t.startsItem = true) : t.kind ≠ k := by
  rintro rfl
  simp only [inner, Bool.and_eq_true, bne_iff_ne] at hkind
  simp [Token.startsItem, hkind] at ht

/-- A token that is not there on the one side is not there on the other. -/
theorem Edge.kind_ne {kind : TokenKind} (hkind : inner kind = true) {t u : Token}
    (h : Edge (t :: ts) (u :: us)) (ht : t.kind ≠ kind) : u.kind ≠ kind := by
  cases h with
  | same look => exact look.kind ▸ ht
  | line hu _ => exact kind_ne_of_startsItem hkind hu
  | inline hu _ _ => exact kind_ne_of_startsItem hkind hu

theorem Edge.cons_left {t : Token} (h : Edge (t :: ts) us) : ∃ u us', us = u :: us' := by
  cases h <;> exact ⟨_, _, rfl⟩

theorem like_none {α : Type} [Node α] : Like (none : Option α) none := .refl _

theorem alike_takeKind {k : TokenKind} (hkind : inner k = true) (hb : Edge bs bs')
    (hagree : Agree bs bs' ts us) (hlen : bs.length ≤ (takeKind k ts).2.length) :
    Like (takeKind k ts).1 (takeKind k us).1 ∧
      Agree bs bs' (takeKind k ts).2 (takeKind k us).2 := by
  cases ts with
  | nil =>
    obtain rfl : us = [] := (hagree.toEdge hb).nil_iff.1 rfl
    exact ⟨like_none, hagree⟩
  | cons t ts =>
    by_cases ht : t.kind = k
    · rw [takeKind, if_pos ht] at hlen ⊢
      obtain ⟨u, us', rfl, look, -, hrest⟩ := hagree.uncons hlen
      rw [takeKind, if_pos (look.kind.trans ht)]
      exact ⟨look.like.some, hrest⟩
    · have hedge := hagree.toEdge hb
      obtain ⟨u, us', rfl⟩ := hedge.cons_left
      rw [takeKind, takeKind, if_neg ht, if_neg (hedge.kind_ne hkind ht)]
      exact ⟨like_none, hagree⟩

theorem alike_expect {kind : TokenKind} {expected : String} {t : Token}
    (hagree : Agree bs bs' ts us) (h : expect kind expected ts = .ok (t, rest))
    (hlen : bs.length ≤ rest.length) :
    ∃ u us', expect kind expected us = .ok (u, us') ∧ t.SameLook u ∧ Agree bs bs' rest us' ∧
      (u.trailing.isEmpty = t.trailing.isEmpty ∨
        looksBack rest = false ∧ looksBack us' = false) := by
  unfold expect at h
  split at h
  · simp at h
  · split at h
    next hkind =>
      obtain ⟨rfl, rfl⟩ := ok_pair_inj.1 h
      obtain ⟨u, us', rfl, look, htrailing, hrest⟩ := hagree.uncons hlen
      refine ⟨u, us', ?_, look, hrest, htrailing⟩
      rw [expect, if_pos (look.kind.trans hkind)]
    next => simp at h

/-- A clause that is told from its first token, and is not there if another one comes. -/
theorem alike_clause {α : Type} [Node α] {k : TokenKind} (hkind : inner k = true)
    {p : List Token → Reading (Option α × List Token)}
    (habsent : ∀ ts, (∀ t ∈ ts.head?, t.kind ≠ k) → p ts = .ok (none, ts))
    (hpresent : ∀ {t : Token} {ts : List Token} {clause : Option α}, t.kind = k →
      Agree bs bs' (t :: ts) us → p (t :: ts) = .ok (clause, rest) →
      ReadsAlike bs bs' clause rest (p us))
    (hb : Edge bs bs') (hagree : Agree bs bs' ts us) {clause : Option α}
    (h : p ts = .ok (clause, rest)) : ReadsAlike bs bs' clause rest (p us) := by
  have hnone (hts : ∀ t ∈ ts.head?, t.kind ≠ k) (hus : ∀ u ∈ us.head?, u.kind ≠ k) :
      ReadsAlike bs bs' clause rest (p us) := by
    rw [habsent ts hts] at h
    obtain ⟨rfl, rfl⟩ := ok_pair_inj.1 h
    exact ⟨none, us, habsent us hus, .refl _, hagree⟩
  have hedge := hagree.toEdge hb
  cases ts with
  | nil =>
    obtain rfl : us = [] := hedge.nil_iff.1 rfl
    exact hnone (by simp) (by simp)
  | cons t ts =>
    by_cases ht : t.kind = k
    · exact hpresent ht hagree h
    · obtain ⟨u, us', rfl⟩ := hedge.cons_left
      exact hnone (by simpa using ht) (by simpa using hedge.kind_ne hkind ht)

theorem groupAt_of_head {left : TokenKind} (h : ∀ t ∈ ts.head?, t.kind ≠ left) :
    groupAt left ts = .ok (none, ts) := by
  cases ts with
  | nil => rfl
  | cons t ts => rw [groupAt, if_neg (h t rfl)]

theorem alike_groupAt {left : TokenKind} (hleft : inner left = true) (hb : Edge bs bs')
    (hagree : Agree bs bs' ts us) {group : Option (List Token)}
    (h : groupAt left ts = .ok (group, rest)) (hlen : bs.length ≤ rest.length) :
    ReadsAlike bs bs' group rest (groupAt left us) := by
  refine alike_clause hleft (fun _ ↦ groupAt_of_head) ?_ hb hagree h
  intro t ts group ht hagree h
  rw [groupAt, if_pos ht] at h
  split at h
  next run rest' hrun =>
    obtain ⟨rfl, rfl⟩ := ok_pair_inj.1 h
    have hle := length_le_of_append (append_of_balancedRun hrun)
    obtain ⟨u, us', rfl, look, -, hrest⟩ := hagree.uncons (Nat.le_trans hlen hle)
    obtain ⟨⟨run', rest''⟩, hrun', halike⟩ := alike_balancedRun hrest hrun hlen
    refine ⟨some (u :: run'), rest'', ?_, ?_, halike.rest⟩
    · rw [groupAt, if_pos (look.kind.trans ht), hrun']
    · exact .some (.cons look.like (Node.like_tokens halike.run))
  next => simp at h

theorem argumentsOf_of_looksBack (name : Token) (h : looksBack ts = false) :
    argumentsOf name ts = .ok (none, ts) := by
  have hhead : ∀ t ∈ ts.head?, t.kind ≠ .leftParen := by
    intro t ht hkind
    simp [looksBack, Option.mem_def.1 ht, hkind] at h
  rw [argumentsOf, groupAt_of_head hhead, ite_self]

theorem alike_argumentsOf {name name' : Token} (hb : Edge bs bs') (hagree : Agree bs bs' ts us)
    (htrailing : name'.trailing.isEmpty = name.trailing.isEmpty ∨
      looksBack ts = false ∧ looksBack us = false) {arguments : Option (List Token)}
    (h : argumentsOf name ts = .ok (arguments, rest)) (hlen : bs.length ≤ rest.length) :
    ReadsAlike bs bs' arguments rest (argumentsOf name' us) := by
  rcases htrailing with htrailing | ⟨hts, hus⟩
  · rw [argumentsOf] at h ⊢
    rw [htrailing]
    split at h
    next hempty =>
      rw [if_pos hempty]
      exact alike_groupAt rfl hb hagree h hlen
    next hempty =>
      rw [if_neg hempty]
      obtain ⟨rfl, rfl⟩ := ok_pair_inj.1 h
      exact ⟨none, us, rfl, like_none, hagree⟩
  · rw [argumentsOf_of_looksBack name hts] at h
    obtain ⟨rfl, rfl⟩ := ok_pair_inj.1 h
    exact ⟨none, us, argumentsOf_of_looksBack name' hus, like_none, hagree⟩

/-! ### Types and expressions -/

theorem alike_type (hb : Edge bs bs') (hagree : Agree bs bs' ts us) {t : TypeRef}
    (h : type ts = .ok (t, rest)) (hlen : bs.length ≤ rest.length) :
    ReadsAlike bs bs' t rest (type us) := by
  unfold type at h
  split at h
  · simp at h
  · simp at h
  next run rest' hne hrun =>
    obtain ⟨rfl, rfl⟩ := ok_pair_inj.1 h
    have hrun_ne : run ≠ [] := by
      rintro rfl
      exact hne rfl
    obtain ⟨⟨run', rest''⟩, hrun', halike⟩ := alike_typeRun hb hagree hrun hlen (.inr hrun_ne)
    refine ⟨typeOfTokens run', rest'', ?_, like_typeOfTokens halike.run, halike.rest⟩
    cases run' with
    | nil =>
      have hnil := halike.run
      simp [hrun_ne] at hnil
    | cons u run' => rw [type, hrun']

theorem alike_expr (hb : Edge bs bs') (hagree : Agree bs bs' ts us) {e : Expr}
    (h : expr ts = .ok (e, rest)) (hlen : bs.length ≤ rest.length) :
    ReadsAlike bs bs' e rest (expr us) := by
  unfold expr at h
  split at h
  · simp at h
  · simp at h
  next run rest' hne hrun =>
    obtain ⟨rfl, rfl⟩ := ok_pair_inj.1 h
    have hrun_ne : run ≠ [] := by
      rintro rfl
      exact hne rfl
    have hlast : LastAlike none none ts us := ⟨rfl, .inl rfl⟩
    obtain ⟨⟨run', rest''⟩, hrun', halike⟩ :=
      alike_exprRun hb hagree hlast hrun hlen (.inr hrun_ne)
    refine ⟨exprOfTokens run', rest'', ?_, like_exprOfTokens halike.run, halike.rest⟩
    cases run' with
    | nil =>
      have hnil := halike.run
      simp [hrun_ne] at hnil
    | cons u run' => rw [expr, hrun']

theorem alike_initializer (hb : Edge bs bs') (hagree : Agree bs bs' ts us)
    {value : Option Initializer} (h : initializer ts = .ok (value, rest))
    (hlen : bs.length ≤ rest.length) : ReadsAlike bs bs' value rest (initializer us) := by
  refine alike_clause (k := .equal) rfl ?_ ?_ hb hagree h
  · intro ts hts
    cases ts with
    | nil => rfl
    | cons t ts => rw [initializer, if_neg (hts t rfl)]
  · intro t ts value ht hagree h
    rw [initializer, if_pos ht] at h
    obtain ⟨⟨e, rest'⟩, he, h⟩ := bind_eq_ok.1 h
    obtain ⟨rfl, rfl⟩ := ok_pair_inj.1 h
    have hle := length_le_of_append (reads_expr _ _ _ he)
    obtain ⟨u, us', rfl, look, -, hrest⟩ := hagree.uncons (Nat.le_trans hlen hle)
    obtain ⟨e', rest'', he', hlike, hrest⟩ := alike_expr hb hrest he hlen
    refine ⟨some ⟨u, e'⟩, rest'', ?_, ?_, hrest⟩
    · rw [initializer, if_pos (look.kind.trans ht)]
      exact bind_eq_ok.2 ⟨_, he', rfl⟩
    · exact .some (.image (fun p ↦ Initializer.mk p.1 p.2) (fun _ ↦ rfl) (look.like.pair hlike))

theorem alike_typeClause (hb : Edge bs bs') (hagree : Agree bs bs' ts us)
    {clause : Option TypeClause} (h : typeClause ts = .ok (clause, rest))
    (hlen : bs.length ≤ rest.length) : ReadsAlike bs bs' clause rest (typeClause us) := by
  refine alike_clause (k := .colon) rfl ?_ ?_ hb hagree h
  · intro ts hts
    cases ts with
    | nil => rfl
    | cons t ts => rw [typeClause, if_neg (hts t rfl)]
  · intro t ts clause ht hagree h
    rw [typeClause, if_pos ht] at h
    obtain ⟨⟨type, rest'⟩, htype, h⟩ := bind_eq_ok.1 h
    obtain ⟨rfl, rfl⟩ := ok_pair_inj.1 h
    have hle := length_le_of_append (reads_type _ _ _ htype)
    obtain ⟨u, us', rfl, look, -, hrest⟩ := hagree.uncons (Nat.le_trans hlen hle)
    obtain ⟨type', rest'', htype', hlike, hrest⟩ := alike_type hb hrest htype hlen
    refine ⟨some ⟨u, type'⟩, rest'', ?_, ?_, hrest⟩
    · rw [typeClause, if_pos (look.kind.trans ht)]
      exact bind_eq_ok.2 ⟨_, htype', rfl⟩
    · exact .some (.image (fun p ↦ TypeClause.mk p.1 p.2) (fun _ ↦ rfl) (look.like.pair hlike))

/-! ### Attributes and modifiers -/

theorem alike_attributeAfter {atSign atSign' : Token} (look : atSign.SameLook atSign')
    (hb : Edge bs bs') (hagree : Agree bs bs' ts us) {a : Attribute}
    (h : attributeAfter atSign ts = .ok (a, rest)) (hlen : bs.length ≤ rest.length) :
    ReadsAlike bs bs' a rest (attributeAfter atSign' us) := by
  unfold attributeAfter at h
  split at h
  · simp at h
  next name ts =>
    split at h
    next hname =>
      obtain ⟨⟨arguments, rest'⟩, harguments, h⟩ := bind_eq_ok.1 h
      obtain ⟨rfl, rfl⟩ := ok_pair_inj.1 h
      have hle := length_le_of_append (reads_argumentsOf _ _ _ _ harguments)
      obtain ⟨name', us', rfl, hlook, htrailing, hrest⟩ := hagree.uncons (Nat.le_trans hlen hle)
      obtain ⟨arguments', rest'', harguments', hlike, hrest⟩ :=
        alike_argumentsOf hb hrest htrailing harguments hlen
      refine ⟨⟨atSign', name', arguments'⟩, rest'', ?_, ?_, hrest⟩
      · rw [attributeAfter, if_pos (by rwa [hlook.kind])]
        exact bind_eq_ok.2 ⟨_, harguments', rfl⟩
      · exact .image (fun p ↦ Attribute.mk p.1 p.2.1 p.2.2) (fun _ ↦ rfl)
          (look.like.pair (hlook.like.pair hlike))
    next => simp at h

/-- What stands next looks the same, unless the lists part there. -/
theorem Agree.head {t : Token} (hb : Edge bs bs') (hagree : Agree bs bs' (t :: ts) us)
    (hlen : bs = [] ∨ bs.length < (t :: ts).length) :
    ∃ u us', us = u :: us' ∧ t.SameLook u ∧ Agree bs bs' ts us' ∧
      (u.trailing.isEmpty = t.trailing.isEmpty ∨ looksBack ts = false ∧ looksBack us' = false) := by
  have hle : bs.length ≤ ts.length := by
    rcases hlen with rfl | hlt
    · simp
    · rw [List.length_cons] at hlt
      omega
  obtain ⟨u, us', rfl, look, htrailing, hrest⟩ := hagree.uncons hle
  exact ⟨u, us', rfl, look, hrest, htrailing⟩

theorem attributes_cons {t : Token} {a : Attribute} {as : List Attribute} {after : List Token}
    (ht : t.kind = .atSign) (hfirst : attributeAfter t ts = .ok (a, after))
    (hrest : attributes after = .ok (as, rest)) : attributes (t :: ts) = .ok (a :: as, rest) := by
  rw [attributes, if_pos ht]
  split
  next e he => simp [hfirst] at he
  next a' after' ha' =>
    obtain ⟨rfl, rfl⟩ := ok_pair_inj.1 (hfirst.symm.trans ha')
    simp only [hrest]

theorem alike_attributes (hb : Edge bs bs') (hagree : Agree bs bs' ts us) {as : List Attribute}
    (h : attributes ts = .ok (as, rest)) (hlen : bs = [] ∨ bs.length < rest.length) :
    ReadsAlike bs bs' as rest (attributes us) := by
  have hle : bs.length ≤ rest.length := by
    rcases hlen with rfl | hlt
    · simp
    · omega
  fun_induction attributes ts generalizing us as rest with
  | case1 =>
    obtain rfl : us = [] := (hagree.toEdge hb).nil_iff.1 rfl
    obtain ⟨rfl, rfl⟩ := ok_pair_inj.1 h
    refine ⟨[], [], ?_, .refl _, hagree⟩
    rw [attributes]
  | case2 | case3 => simp at h
  | case4 t ts ht a rest₁ first as₁ rest₂ hrest₁ ih =>
    obtain ⟨rfl, rfl⟩ := ok_pair_inj.1 h
    have hle₁ := length_le_of_append (reads_attributes _ _ _ hrest₁)
    have hle₂ := length_lt_of_attributeAfter first
    rw [List.length_cons] at hle₂
    obtain ⟨u, us', rfl, look, -, hrest⟩ := hagree.uncons (by omega)
    obtain ⟨a', rest₁', first', hlike, hagree₁⟩ :=
      alike_attributeAfter look hb hrest first (by omega)
    obtain ⟨as', rest₂', hrest₁', hlikes, hagree₂⟩ := ih hagree₁ hrest₁ hlen hle
    refine ⟨a' :: as', rest₂', ?_, .cons hlike hlikes, hagree₂⟩
    exact attributes_cons (look.kind.trans ht) first' hrest₁'
  | case5 t ts ht =>
    obtain ⟨rfl, rfl⟩ := ok_pair_inj.1 h
    obtain ⟨u, us', rfl, look, -, -⟩ := hagree.head hb hlen
    refine ⟨[], u :: us', ?_, .refl _, hagree⟩
    rw [attributes, if_neg (by rwa [look.kind])]

theorem isModifier_of_sameLook {t u : Token} (look : t.SameLook u) {next next' : Option Token}
    (hnext : next'.map Token.bare = next.map Token.bare) :
    isModifier u next' = isModifier t next := by
  have hany (q : Token → Bool) (hq : ∀ v : Token, q v.bare = q v) : next'.any q = next.any q := by
    have hmap (o : Option Token) : (o.map Token.bare).any q = o.any q := by
      cases o with
      | none => rfl
      | some v => exact hq v
    rw [← hmap next', hnext, hmap]
  unfold isModifier
  rw [look.kind, look.text, look.isKeyword, hany _ fun _ ↦ rfl, hany _ fun _ ↦ rfl]

theorem modifiers_cons {t : Token} {detail : Option (List Token)} {ms : List Modifier}
    {after : List Token} (ht : isModifier t ts.head? = true)
    (hdetail : argumentsOf t ts = .ok (detail, after))
    (hrest : modifiers after = .ok (ms, rest)) :
    modifiers (t :: ts) = .ok (⟨t, detail⟩ :: ms, rest) := by
  rw [modifiers, if_pos ht]
  split
  next e he => simp [hdetail] at he
  next detail' after' hd' =>
    obtain ⟨rfl, rfl⟩ := ok_pair_inj.1 (hdetail.symm.trans hd')
    simp only [hrest]

/-- The next tokens look the same, unless the lists part there. -/
theorem Agree.map_head? (hb : Edge bs bs') (hagree : Agree bs bs' ts us)
    (hlen : bs = [] ∨ bs.length < ts.length) :
    us.head?.map Token.bare = ts.head?.map Token.bare := by
  cases ts with
  | nil =>
    obtain rfl : us = [] := (hagree.toEdge hb).nil_iff.1 rfl
    rfl
  | cons t ts =>
    obtain ⟨u, us', rfl, look, -, -⟩ := hagree.head hb hlen
    exact congrArg some look.bare

/-- The token at which modifiers end is judged by the one after it. -/
theorem alike_modifiers (hb : Edge bs bs') (hagree : Agree bs bs' ts us) {ms : List Modifier}
    (h : modifiers ts = .ok (ms, rest)) (hlen : bs = [] ∨ bs.length + 1 < rest.length) :
    ReadsAlike bs bs' ms rest (modifiers us) := by
  fun_induction modifiers ts generalizing us ms rest with
  | case1 =>
    obtain rfl : us = [] := (hagree.toEdge hb).nil_iff.1 rfl
    obtain ⟨rfl, rfl⟩ := ok_pair_inj.1 h
    refine ⟨[], [], ?_, .refl _, hagree⟩
    rw [modifiers]
  | case2 | case3 => simp at h
  | case4 t ts ht detail rest₁ hdetail ms₁ rest₂ hrest₁ ih =>
    obtain ⟨rfl, rfl⟩ := ok_pair_inj.1 h
    have hle₁ := length_le_of_append (reads_modifiers _ _ _ hrest₁)
    have hle₂ := length_le_of_append (reads_argumentsOf _ _ _ _ hdetail)
    have hlt : bs = [] ∨ bs.length < ts.length := hlen.imp_right fun hlt ↦ by omega
    have hle : bs.length ≤ rest₁.length := by
      rcases hlen with rfl | hlt
      · simp
      · omega
    obtain ⟨u, us', rfl, look, htrailing, hrest⟩ := hagree.uncons (by omega)
    obtain ⟨detail', rest₁', hdetail', hlike, hagree₁⟩ :=
      alike_argumentsOf hb hrest htrailing hdetail hle
    obtain ⟨ms', rest₂', hrest₁', hlikes, hagree₂⟩ := ih hagree₁ hrest₁ hlen
    refine ⟨⟨u, detail'⟩ :: ms', rest₂', ?_, .cons ?_ hlikes, hagree₂⟩
    · refine modifiers_cons ?_ hdetail' hrest₁'
      rw [isModifier_of_sameLook look (hrest.map_head? hb hlt), ht]
    · exact .image (fun p ↦ Modifier.mk p.1 p.2) (fun _ ↦ rfl) (look.like.pair hlike)
  | case5 t ts ht =>
    obtain ⟨rfl, rfl⟩ := ok_pair_inj.1 h
    rw [List.length_cons] at hlen
    obtain ⟨u, us', rfl, look, hrest, -⟩ := hagree.head hb (hlen.imp_right fun hlt ↦ by
      rw [List.length_cons]
      omega)
    have hnext := hrest.map_head? hb (hlen.imp_right fun hlt ↦ by omega)
    refine ⟨[], u :: us', ?_, .refl _, hagree⟩
    rw [modifiers, if_neg (by rwa [isModifier_of_sameLook look hnext])]

theorem alike_preamble (hb : Edge bs bs') (hagree : Agree bs bs' ts us) {p : Preamble}
    (h : preamble ts = .ok (p, rest)) (hlen : bs = [] ∨ bs.length + 1 < rest.length) :
    ReadsAlike bs bs' p rest (preamble us) := by
  obtain ⟨⟨as, ts₁⟩, has, h⟩ := bind_eq_ok.1 h
  obtain ⟨⟨ms, ts₂⟩, hms, h⟩ := bind_eq_ok.1 h
  obtain ⟨rfl, rfl⟩ := ok_pair_inj.1 h
  have hle := length_le_of_append (reads_modifiers _ _ _ hms)
  obtain ⟨as', us₁, has', hlike, hagree⟩ :=
    alike_attributes hb hagree has (hlen.imp_right fun hlt ↦ by omega)
  obtain ⟨ms', us₂, hms', hlikes, hagree⟩ := alike_modifiers hb hagree hms hlen
  refine ⟨⟨as', ms'⟩, us₂, bind_eq_ok.2 ⟨_, has', bind_eq_ok.2 ⟨_, hms', rfl⟩⟩, ?_, hagree⟩
  exact .image (fun p ↦ Preamble.mk p.1 p.2) (fun _ ↦ rfl) (hlike.pair hlikes)

/-! ### Cases and bindings -/

theorem alike_caseElement (hb : Edge bs bs') (hagree : Agree bs bs' ts us) {e : CaseElement}
    (h : caseElement ts = .ok (e, rest)) (hlen : bs.length ≤ rest.length) :
    ReadsAlike bs bs' e rest (caseElement us) := by
  obtain ⟨⟨name, ts₁⟩, hname, h⟩ := bind_eq_ok.1 h
  obtain ⟨⟨value, ts₂⟩, hvalue, h⟩ := bind_eq_ok.1 h
  obtain ⟨⟨raw, ts₃⟩, hraw, h⟩ := bind_eq_ok.1 h
  obtain ⟨rfl, rfl⟩ := ok_pair_inj.1 h
  have hle₁ := length_le_of_append (reads_groupAt _ _ _ _ hvalue)
  have hle₂ := length_le_of_append (reads_initializer _ _ _ hraw)
  have hle₃ := length_le_of_append (takeKind_append .comma ts₃)
  obtain ⟨name', us₁, hname', look, hagree, -⟩ := alike_expect hagree hname (by omega)
  obtain ⟨value', us₂, hvalue', hlike₁, hagree⟩ := alike_groupAt rfl hb hagree hvalue (by omega)
  obtain ⟨raw', us₃, hraw', hlike₂, hagree⟩ := alike_initializer hb hagree hraw (by omega)
  obtain ⟨hlike₃, hagree⟩ := alike_takeKind (k := .comma) rfl hb hagree hlen
  refine ⟨⟨name', value', raw', (takeKind .comma us₃).1⟩, (takeKind .comma us₃).2, ?_, ?_, hagree⟩
  · exact bind_eq_ok.2 ⟨_, hname', bind_eq_ok.2 ⟨_, hvalue', bind_eq_ok.2 ⟨_, hraw', rfl⟩⟩⟩
  · exact .image (fun p ↦ CaseElement.mk p.1 p.2.1 p.2.2.1 p.2.2.2) (fun _ ↦ rfl)
      (look.like.pair (hlike₁.pair (hlike₂.pair hlike₃)))

theorem caseElements_cons {e : CaseElement} {es : List CaseElement} {after : List Token}
    (hfirst : caseElement ts = .ok (e, after)) (hcomma : e.comma.isSome = true)
    (hrest : caseElements after = .ok (es, rest)) : caseElements ts = .ok (e :: es, rest) := by
  rw [caseElements]
  split
  next err he => simp [hfirst] at he
  next e' after' he' =>
    obtain ⟨rfl, rfl⟩ := ok_pair_inj.1 (hfirst.symm.trans he')
    simp only [hcomma, if_true, hrest]

theorem caseElements_single {e : CaseElement} (hfirst : caseElement ts = .ok (e, rest))
    (hcomma : e.comma.isSome = false) : caseElements ts = .ok ([e], rest) := by
  rw [caseElements]
  split
  next err he => simp [hfirst] at he
  next e' after' he' =>
    obtain ⟨rfl, rfl⟩ := ok_pair_inj.1 (hfirst.symm.trans he')
    simp [hcomma]

theorem isSome_of_like {α : Type} [Node α] {o o' : Option α} (h : Like o o') :
    o'.isSome = o.isSome := by
  cases o <;> cases o' <;> simp_all [Like, Node.mapTokens, Node.mapTokensM]

theorem alike_caseElements (hb : Edge bs bs') (hagree : Agree bs bs' ts us)
    {es : List CaseElement} (h : caseElements ts = .ok (es, rest))
    (hlen : bs.length ≤ rest.length) : ReadsAlike bs bs' es rest (caseElements us) := by
  fun_induction caseElements ts generalizing us es rest with
  | case1 | case2 => simp at h
  | case3 ts e rest₁ he hcomma es₁ rest₂ hrest₁ ih =>
    obtain ⟨rfl, rfl⟩ := ok_pair_inj.1 h
    have hle := length_le_of_append (reads_caseElements _ _ _ hrest₁)
    obtain ⟨e', us₁, he', hlike, hagree⟩ := alike_caseElement hb hagree he (by omega)
    obtain ⟨es', us₂, hes', hlikes, hagree⟩ := ih hagree hrest₁ hlen
    refine ⟨e' :: es', us₂, caseElements_cons he' ?_ hes', .cons hlike hlikes, hagree⟩
    rw [isSome_of_like (congrArg CaseElement.comma hlike), hcomma]
  | case4 ts e rest₁ he hcomma =>
    obtain ⟨rfl, rfl⟩ := ok_pair_inj.1 h
    obtain ⟨e', us₁, he', hlike, hagree⟩ := alike_caseElement hb hagree he hlen
    refine ⟨[e'], us₁, caseElements_single he' ?_, .cons hlike (.refl _), hagree⟩
    rw [isSome_of_like (congrArg CaseElement.comma hlike)]
    simpa using hcomma

/-- A declaration that is over on the one side is over on the other. -/
theorem atDeclEnd_of_edge (hedge : Edge ts us) (h : atDeclEnd ts = true) : atDeclEnd us = true := by
  cases hedge with
  | nil => rfl
  | same look => simpa [atDeclEnd, look.kind, look.startsLine] using h
  | line _ hline => simp [atDeclEnd, hline]
  | inline _ ht hline =>
    have hsemicolon := kind_ne_of_startsItem (k := .semicolon) rfl ht
    have hbrace := kind_ne_of_startsItem (k := .rightBrace) rfl ht
    simp [atDeclEnd, hline, hsemicolon, hbrace] at h

theorem alike_caseDecl {p p' : Preamble} (hp : Like p p') {keyword keyword' : Token}
    (look : keyword.SameLook keyword') (hb : Edge bs bs') (hagree : Agree bs bs' ts us)
    {d : CaseDecl} (h : caseDecl p keyword ts = .ok (d, rest)) (hlen : bs.length ≤ rest.length) :
    ReadsAlike bs bs' d rest (caseDecl p' keyword' us) := by
  obtain ⟨⟨es, ts₁⟩, hes, h⟩ := bind_eq_ok.1 h
  dsimp only at h
  split at h
  next hend =>
    obtain ⟨rfl, rfl⟩ := ok_pair_inj.1 h
    obtain ⟨es', us₁, hes', hlike, hagree⟩ := alike_caseElements hb hagree hes hlen
    refine ⟨⟨p', keyword', es'⟩, us₁, ?_, ?_, hagree⟩
    · refine bind_eq_ok.2 ⟨_, hes', ?_⟩
      dsimp only
      rw [if_pos (atDeclEnd_of_edge (hagree.toEdge hb) hend)]
      rfl
    · exact .image (fun p ↦ CaseDecl.mk p.1 p.2.1 p.2.2) (fun _ ↦ rfl)
        (hp.pair (look.like.pair hlike))
  next => simp [throw, throwThe, MonadExceptOf.throw] at h

theorem alike_bindingDecl {p p' : Preamble} (hp : Like p p') {keyword keyword' : Token}
    (look : keyword.SameLook keyword') (hb : Edge bs bs') (hagree : Agree bs bs' ts us)
    {d : BindingDecl} (h : bindingDecl p keyword ts = .ok (d, rest))
    (hlen : bs.length ≤ rest.length) :
    ReadsAlike bs bs' d rest (bindingDecl p' keyword' us) := by
  obtain ⟨⟨name, ts₁⟩, hname, h⟩ := bind_eq_ok.1 h
  obtain ⟨⟨type, ts₂⟩, htype, h⟩ := bind_eq_ok.1 h
  obtain ⟨⟨value, ts₃⟩, hvalue, h⟩ := bind_eq_ok.1 h
  obtain ⟨⟨accessors, ts₄⟩, haccessors, h⟩ := bind_eq_ok.1 h
  dsimp only at h
  split at h
  next hend =>
    obtain ⟨rfl, rfl⟩ := ok_pair_inj.1 h
    have hle₁ := length_le_of_append (reads_typeClause _ _ _ htype)
    have hle₂ := length_le_of_append (reads_initializer _ _ _ hvalue)
    have hle₃ := length_le_of_append (reads_groupAt _ _ _ _ haccessors)
    obtain ⟨name', us₁, hname', hlook, hagree, -⟩ := alike_expect hagree hname (by omega)
    obtain ⟨type', us₂, htype', hlike₁, hagree⟩ := alike_typeClause hb hagree htype (by omega)
    obtain ⟨value', us₃, hvalue', hlike₂, hagree⟩ := alike_initializer hb hagree hvalue (by omega)
    obtain ⟨accessors', us₄, haccessors', hlike₃, hagree⟩ :=
      alike_groupAt rfl hb hagree haccessors hlen
    refine ⟨⟨p', keyword', name', type', value', accessors'⟩, us₄, ?_, ?_, hagree⟩
    · refine bind_eq_ok.2 ⟨_, hname', bind_eq_ok.2 ⟨_, htype', bind_eq_ok.2 ⟨_, hvalue',
        bind_eq_ok.2 ⟨_, haccessors', ?_⟩⟩⟩⟩
      dsimp only
      rw [if_pos (atDeclEnd_of_edge (hagree.toEdge hb) hend)]
      rfl
    · exact .image (fun p ↦ BindingDecl.mk p.1 p.2.1 p.2.2.1 p.2.2.2.1 p.2.2.2.2.1 p.2.2.2.2.2)
        (fun _ ↦ rfl) (hp.pair (look.like.pair (hlook.like.pair (hlike₁.pair
          (hlike₂.pair hlike₃)))))
  next => simp [throw, throwThe, MonadExceptOf.throw] at h

end

end EnumForge.Grammar
