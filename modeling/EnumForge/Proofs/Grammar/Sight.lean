import EnumForge.Proofs.Grammar.Alike
import EnumForge.Proofs.Grammar.Opening

/-!
# What a reader does not see

Lists of tokens that look the same to the end are read alike throughout: neither places in a source
nor trivia that leaves every token on its line make a difference.  A case or a binding that does not
come out even on the one side does not on the other, since the likeness goes both ways.
-/

namespace EnumForge.Grammar

open Node (Like)

/-- Lists that look the same to their ends. -/
def SameSight (ts us : List Token) : Prop := Agree [] [] ts us

namespace SameSight

variable {ts us : List Token}

theorem symm (h : SameSight ts us) : SameSight us ts := by
  unfold SameSight at *
  induction h with
  | edge => exact .edge
  | cons look trailing _ ih => exact .cons look.symm (trailing.imp Eq.symm And.symm) ih

end SameSight

/-- Where the heads of two groups part: at their opening braces, if they do not go on alike. -/
inductive AtBlock : List Token → List Token → Prop where
  | nil : AtBlock [] []
  | brace {t u : Token} {ts us : List Token} (look : t.SameLook u) (ht : t.kind = .leftBrace) :
      AtBlock (t :: ts) (u :: us)

section

variable {bs bs' ts us rest : List Token}

theorem AtBlock.edge (h : AtBlock bs bs') : Edge bs bs' := by
  cases h with
  | nil => exact .nil
  | brace look _ => exact .same look

/-- The next tokens look the same. -/
theorem AtBlock.head (h : AtBlock bs bs') {t : Token} (hagree : Agree bs bs' (t :: ts) us) :
    ∃ u us', us = u :: us' ∧ t.SameLook u := by
  cases hagree with
  | edge =>
    cases h with
    | brace look _ => exact ⟨_, _, rfl, look⟩
  | cons look _ _ => exact ⟨_, _, rfl, look⟩

/-! ### Raw declarations -/

theorem alike_rawDecl {p p' : Preamble} (hp : Like p p') (hsight : SameSight ts us) {d : RawDecl}
    (h : rawDecl p ts = .ok (d, rest)) : ReadsAlike [] [] d rest (rawDecl p' us) := by
  cases ts with
  | nil => simp [rawDecl] at h
  | cons t ts =>
    obtain ⟨u, us', rfl, look, -, hrest⟩ := hsight.uncons (Nat.zero_le _)
    rw [rawDecl] at h
    split at h
    · simp at h
    next hbrace =>
      split at h
      · simp at h
      next hcloses =>
        split at h
        next run rest' hrun =>
          obtain ⟨rfl, rfl⟩ := ok_pair_inj.1 h
          obtain ⟨⟨run', rest''⟩, hrun', halike⟩ :=
            alike_rawRun .nil hrest hrun (Nat.zero_le _)
          refine ⟨⟨p', u :: run'⟩, rest'', ?_, ?_, halike.rest⟩
          · rw [rawDecl, look.kind, if_neg hbrace, if_neg hcloses, hrun']
          · have hbody : Like (t :: run) (u :: run') :=
              .cons look.like (Node.like_tokens halike.run)
            exact .image (fun p ↦ RawDecl.mk p.1 p.2) (fun _ ↦ rfl) (hp.pair hbody)
        next => simp at h
        next => simp at h

/-! ### The clauses of a group -/

theorem alike_generics (hb : AtBlock bs bs') (hagree : Agree bs bs' ts us)
    {group : Option (List Token)} (h : generics ts = .ok (group, rest))
    (hlen : bs.length ≤ rest.length) : ReadsAlike bs bs' group rest (generics us) := by
  cases ts with
  | nil =>
    obtain rfl : us = [] := (hagree.toEdge hb.edge).nil_iff.1 rfl
    obtain ⟨rfl, rfl⟩ := ok_pair_inj.1 h
    exact ⟨none, [], rfl, .refl _, hagree⟩
  | cons t ts =>
    obtain ⟨u, us', rfl, look⟩ := hb.head hagree
    rw [generics] at h
    split at h
    next hangle =>
      split at h
      next run rest' hrun =>
        obtain ⟨rfl, rfl⟩ := ok_pair_inj.1 h
        obtain ⟨⟨run', rest''⟩, hrun', halike⟩ := alike_angleRun hagree hrun hlen
        refine ⟨some run', rest'', ?_, .some (Node.like_tokens halike.run), halike.rest⟩
        rw [generics, look.kind, look.text, if_pos hangle, hrun']
      next => simp at h
    next hangle =>
      obtain ⟨rfl, rfl⟩ := ok_pair_inj.1 h
      refine ⟨none, u :: us', ?_, .refl _, hagree⟩
      rw [generics, look.kind, look.text, if_neg hangle]

theorem alike_whereClause (hb : AtBlock bs bs') (hagree : Agree bs bs' ts us) :
    Like (whereClause ts).1 (whereClause us).1 ∧
      Agree bs bs' (whereClause ts).2 (whereClause us).2 := by
  have hwhile {ts us : List Token} (hagree : Agree bs bs' ts us) :
      Like (ts.takeWhile (·.kind != .leftBrace)) (us.takeWhile (·.kind != .leftBrace)) ∧
        Agree bs bs' (ts.dropWhile (·.kind != .leftBrace))
          (us.dropWhile (·.kind != .leftBrace)) := by
    induction hagree with
    | edge =>
      cases hb with
      | nil => exact ⟨.refl _, .edge⟩
      | brace look ht =>
        simp only [List.takeWhile_cons, List.dropWhile_cons, look.kind, ht]
        exact ⟨.refl _, .edge⟩
    | @cons t u ts us look trailing hrest ih =>
      rw [List.takeWhile_cons, List.takeWhile_cons, List.dropWhile_cons, List.dropWhile_cons,
        look.kind]
      split
      · exact ⟨.cons look.like ih.1, ih.2⟩
      · exact ⟨.refl _, .cons look trailing hrest⟩
  cases hagree with
  | edge =>
    cases hb with
    | nil => exact ⟨.refl _, .edge⟩
    | @brace t u ts us look ht =>
      have hwhere {v : Token} (hv : v.kind = .leftBrace) : ¬v.isKeyword "where" = true := by
        simp [Token.isKeyword, hv]
      rw [whereClause, whereClause, if_neg (hwhere ht), if_neg (hwhere (look.kind.trans ht))]
      exact ⟨.refl _, .edge⟩
  | cons look trailing hrest =>
    rw [whereClause, whereClause, look.isKeyword]
    split
    · exact ⟨.some (.cons look.like (hwhile hrest).1), (hwhile hrest).2⟩
    · exact ⟨.refl _, .cons look trailing hrest⟩

theorem alike_continuesList {comma comma' : Option Token} (hcomma : Like comma comma')
    (hb : AtBlock bs bs') (hagree : Agree bs bs' ts us) :
    continuesList comma' us = continuesList comma ts := by
  rw [continuesList, continuesList, isSome_of_like hcomma]
  cases ts with
  | nil =>
    obtain rfl : us = [] := (hagree.toEdge hb.edge).nil_iff.1 rfl
    rfl
  | cons t ts =>
    obtain ⟨u, us', rfl, look⟩ := hb.head hagree
    simp [look.kind]

theorem inheritedTypes_cons {t : TypeRef} {is : List InheritedType} {after : List Token}
    (htype : type ts = .ok (t, after))
    (hmore : continuesList (takeKind .comma after).1 (takeKind .comma after).2 = true)
    (hrest : inheritedTypes (takeKind .comma after).2 = .ok (is, rest)) :
    inheritedTypes ts = .ok (⟨t, (takeKind .comma after).1⟩ :: is, rest) := by
  rw [inheritedTypes]
  split
  next e he => simp [htype] at he
  next t' after' ht' =>
    obtain ⟨rfl, rfl⟩ := ok_pair_inj.1 (htype.symm.trans ht')
    rw [if_pos hmore, hrest]

theorem inheritedTypes_single {t : TypeRef} {after : List Token} (htype : type ts = .ok (t, after))
    (hmore : continuesList (takeKind .comma after).1 (takeKind .comma after).2 = false) :
    inheritedTypes ts = .ok ([⟨t, (takeKind .comma after).1⟩], (takeKind .comma after).2) := by
  rw [inheritedTypes]
  split
  next e he => simp [htype] at he
  next t' after' ht' =>
    obtain ⟨rfl, rfl⟩ := ok_pair_inj.1 (htype.symm.trans ht')
    rw [if_neg (by simp [hmore])]

theorem alike_inheritedTypes (hb : AtBlock bs bs') (hagree : Agree bs bs' ts us)
    {is : List InheritedType} (h : inheritedTypes ts = .ok (is, rest))
    (hlen : bs.length ≤ rest.length) : ReadsAlike bs bs' is rest (inheritedTypes us) := by
  fun_induction inheritedTypes ts generalizing us is rest with
  | case1 | case2 => simp at h
  | case3 ts t rest₁ ht hmore is₁ rest₂ hrest₁ ih =>
    obtain ⟨rfl, rfl⟩ := ok_pair_inj.1 h
    have hle₁ := length_le_of_append (reads_inheritedTypes _ _ _ hrest₁)
    have hle₂ := length_le_of_append (takeKind_append .comma rest₁)
    obtain ⟨t', us₁, ht', hlike, hagree⟩ := alike_type hb.edge hagree ht (by omega)
    obtain ⟨hcomma, hagree⟩ := alike_takeKind (k := .comma) rfl hb.edge hagree (by omega)
    obtain ⟨is', us₂, his', hlikes, hagree₂⟩ := ih hagree hrest₁ hlen
    refine ⟨⟨t', (takeKind .comma us₁).1⟩ :: is', us₂, ?_, .cons ?_ hlikes, hagree₂⟩
    · exact inheritedTypes_cons ht' (by rwa [alike_continuesList hcomma hb hagree]) his'
    · exact .image (fun p ↦ InheritedType.mk p.1 p.2) (fun _ ↦ rfl) (hlike.pair hcomma)
  | case4 ts t rest₁ ht hmore =>
    obtain ⟨rfl, rfl⟩ := ok_pair_inj.1 h
    have hle := length_le_of_append (takeKind_append .comma rest₁)
    obtain ⟨t', us₁, ht', hlike, hagree⟩ := alike_type hb.edge hagree ht (by omega)
    obtain ⟨hcomma, hagree⟩ := alike_takeKind (k := .comma) rfl hb.edge hagree hlen
    refine ⟨[⟨t', (takeKind .comma us₁).1⟩], (takeKind .comma us₁).2, ?_, .cons ?_ (.refl _),
      hagree⟩
    · refine inheritedTypes_single ht' ?_
      rw [alike_continuesList hcomma hb hagree]
      simpa using hmore
    · exact .image (fun p ↦ InheritedType.mk p.1 p.2) (fun _ ↦ rfl) (hlike.pair hcomma)

theorem alike_inheritance (hb : AtBlock bs bs') (hagree : Agree bs bs' ts us)
    {clause : Option InheritanceClause} (h : inheritance ts = .ok (clause, rest))
    (hlen : bs.length ≤ rest.length) : ReadsAlike bs bs' clause rest (inheritance us) := by
  refine alike_clause (k := .colon) rfl ?_ ?_ hb.edge hagree h
  · intro ts hts
    cases ts with
    | nil => rfl
    | cons t ts => rw [inheritance, if_neg (hts t rfl)]
  · intro t ts clause ht hagree h
    rw [inheritance, if_pos ht] at h
    obtain ⟨⟨types, rest'⟩, htypes, h⟩ := bind_eq_ok.1 h
    obtain ⟨rfl, rfl⟩ := ok_pair_inj.1 h
    have hle := length_le_of_append (reads_inheritedTypes _ _ _ htypes)
    obtain ⟨u, us', rfl, look, -, hrest⟩ := hagree.uncons (by omega)
    obtain ⟨types', rest'', htypes', hlike, hrest⟩ := alike_inheritedTypes hb hrest htypes hlen
    refine ⟨some ⟨u, types'⟩, rest'', ?_, ?_, hrest⟩
    · rw [inheritance, if_pos (look.kind.trans ht)]
      exact bind_eq_ok.2 ⟨_, htypes', rfl⟩
    · exact .some (.image (fun p ↦ InheritanceClause.mk p.1 p.2) (fun _ ↦ rfl)
        (look.like.pair hlike))

/-! ### Openings -/

theorem alike_nominalHead {expected : String} {p p' : Preamble} (hp : Like p p')
    {keyword keyword' : Token} (look : keyword.SameLook keyword') (hb : AtBlock bs bs')
    (hagree : Agree bs bs' ts us) {head : NominalHead}
    (h : nominalHead expected p keyword ts = .ok (head, rest)) (hlen : bs.length ≤ rest.length) :
    ReadsAlike bs bs' head rest (nominalHead expected p' keyword' us) := by
  obtain ⟨⟨name, ts₁⟩, hname, h⟩ := bind_eq_ok.1 h
  obtain ⟨⟨gen, ts₂⟩, hgen, h⟩ := bind_eq_ok.1 h
  obtain ⟨⟨inh, ts₃⟩, hinh, h⟩ := bind_eq_ok.1 h
  obtain ⟨rfl, rfl⟩ := ok_pair_inj.1 h
  have hle₁ := length_le_of_append (reads_generics _ _ _ hgen)
  have hle₂ := length_le_of_append (reads_inheritance _ _ _ hinh)
  have hle₃ := length_le_of_append (whereClause_append ts₃)
  obtain ⟨name', us₁, hname', hlook, hagree, -⟩ := alike_expect hagree hname (by omega)
  obtain ⟨gen', us₂, hgen', hlike₁, hagree⟩ := alike_generics hb hagree hgen (by omega)
  obtain ⟨inh', us₃, hinh', hlike₂, hagree⟩ := alike_inheritance hb hagree hinh (by omega)
  obtain ⟨hlike₃, hagree⟩ := alike_whereClause hb hagree
  refine ⟨⟨p', keyword', name', gen', inh', (whereClause us₃).1⟩, (whereClause us₃).2, ?_, ?_,
    hagree⟩
  · exact bind_eq_ok.2 ⟨_, hname', bind_eq_ok.2 ⟨_, hgen', bind_eq_ok.2 ⟨_, hinh', rfl⟩⟩⟩
  · exact .image (fun p ↦ NominalHead.mk p.1 p.2.1 p.2.2.1 p.2.2.2.1 p.2.2.2.2.1 p.2.2.2.2.2)
      (fun _ ↦ rfl) (hp.pair (look.like.pair (hlook.like.pair (hlike₁.pair
        (hlike₂.pair hlike₃)))))

theorem alike_extensionHead {p p' : Preamble} (hp : Like p p') {keyword keyword' : Token}
    (look : keyword.SameLook keyword') (hb : AtBlock bs bs') (hagree : Agree bs bs' ts us)
    {head : ExtensionHead} (h : extensionHead p keyword ts = .ok (head, rest))
    (hlen : bs.length ≤ rest.length) :
    ReadsAlike bs bs' head rest (extensionHead p' keyword' us) := by
  obtain ⟨⟨type, ts₁⟩, htype, h⟩ := bind_eq_ok.1 h
  obtain ⟨⟨inh, ts₂⟩, hinh, h⟩ := bind_eq_ok.1 h
  obtain ⟨rfl, rfl⟩ := ok_pair_inj.1 h
  have hle₁ := length_le_of_append (reads_inheritance _ _ _ hinh)
  have hle₂ := length_le_of_append (whereClause_append ts₂)
  obtain ⟨type', us₁, htype', hlike₁, hagree⟩ := alike_type hb.edge hagree htype (by omega)
  obtain ⟨inh', us₂, hinh', hlike₂, hagree⟩ := alike_inheritance hb hagree hinh (by omega)
  obtain ⟨hlike₃, hagree⟩ := alike_whereClause hb hagree
  refine ⟨⟨p', keyword', type', inh', (whereClause us₂).1⟩, (whereClause us₂).2, ?_, ?_, hagree⟩
  · exact bind_eq_ok.2 ⟨_, htype', bind_eq_ok.2 ⟨_, hinh', rfl⟩⟩
  · exact .image (fun p ↦ ExtensionHead.mk p.1 p.2.1 p.2.2.1 p.2.2.2.1 p.2.2.2.2)
      (fun _ ↦ rfl) (hp.pair (look.like.pair (hlike₁.pair (hlike₂.pair hlike₃))))

/-- Openings that differ in trivia and places only. -/
inductive OpeningAlike : Opening → Opening → Prop where
  | leaf {d d' : Decl} (h : Like d d') : OpeningAlike (.leaf d) (.leaf d')
  | enum {head head' : NominalHead} (h : Like head head') :
      OpeningAlike (.group (.enum head)) (.group (.enum head'))
  | nominal {head head' : NominalHead} (h : Like head head') :
      OpeningAlike (.group (.nominal head)) (.group (.nominal head'))
  | extension {head head' : ExtensionHead} (h : Like head head') :
      OpeningAlike (.group (.extension head)) (.group (.extension head'))

theorem startOf_of_sameLook {t u : Token} (look : t.SameLook u) {next next' : Option Token}
    (hnext : next'.map Token.bare = next.map Token.bare) : startOf u next' = startOf t next := by
  have hany : next'.any (·.kind == .identifier) = next.any (·.kind == .identifier) := by
    have hmap (o : Option Token) :
        (o.map Token.bare).any (·.kind == .identifier) = o.any (·.kind == .identifier) := by
      cases o <;> rfl
    rw [← hmap next', hnext, hmap]
  unfold startOf
  rw [look.kind, look.text, hany]

theorem readsRaw_of_sameSight {p p' : Preamble} (hp : Like p p') {t u : Token}
    (look : t.SameLook u) (hsight : SameSight ts us)
    (hstart : startOf u us.head? = startOf t ts.head?) (h : ReadsRaw p t ts) :
    ReadsRaw p' u us := by
  cases h with
  | other hother => exact .other (hstart.trans hother)
  | enumCase hcase herror =>
    cases hdecl : caseDecl p' u us with
    | error e => exact .enumCase (hstart.trans hcase) hdecl
    | ok r =>
      obtain ⟨d, r, hd, -, -⟩ :=
        alike_caseDecl hp.symm look.symm .nil hsight.symm hdecl (Nat.zero_le _)
      simp [herror] at hd
  | binding hbinding herror =>
    cases hdecl : bindingDecl p' u us with
    | error e => exact .binding (hstart.trans hbinding) hdecl
    | ok r =>
      obtain ⟨d, r, hd, -, -⟩ :=
        alike_bindingDecl hp.symm look.symm .nil hsight.symm hdecl (Nat.zero_le _)
      simp [herror] at hd

theorem alike_openingRead {p p' : Preamble} (hp : Like p p') (hsight : SameSight ts us)
    {o : Opening} (h : OpeningRead p ts o rest) :
    ∃ o' rest', OpeningRead p' us o' rest' ∧ OpeningAlike o o' ∧ SameSight rest rest' := by
  cases h with
  | @enum t ts _ head hstart h =>
    obtain ⟨u, us', rfl, look, -, hrest⟩ := hsight.uncons (Nat.zero_le _)
    have hsame := startOf_of_sameLook look (hrest.map_head? .nil (.inl rfl))
    obtain ⟨head', rest', h', hlike, hrest⟩ :=
      alike_nominalHead hp look .nil hrest h (Nat.zero_le _)
    exact ⟨_, rest', .enum (hsame.trans hstart) h', .enum hlike, hrest⟩
  | @nominal t ts _ head hstart h =>
    obtain ⟨u, us', rfl, look, -, hrest⟩ := hsight.uncons (Nat.zero_le _)
    have hsame := startOf_of_sameLook look (hrest.map_head? .nil (.inl rfl))
    obtain ⟨head', rest', h', hlike, hrest⟩ :=
      alike_nominalHead hp look .nil hrest h (Nat.zero_le _)
    exact ⟨_, rest', .nominal (hsame.trans hstart) h', .nominal hlike, hrest⟩
  | @extension t ts _ head hstart h =>
    obtain ⟨u, us', rfl, look, -, hrest⟩ := hsight.uncons (Nat.zero_le _)
    have hsame := startOf_of_sameLook look (hrest.map_head? .nil (.inl rfl))
    obtain ⟨head', rest', h', hlike, hrest⟩ :=
      alike_extensionHead hp look .nil hrest h (Nat.zero_le _)
    exact ⟨_, rest', .extension (hsame.trans hstart) h', .extension hlike, hrest⟩
  | @enumCase t ts _ d hstart h =>
    obtain ⟨u, us', rfl, look, -, hrest⟩ := hsight.uncons (Nat.zero_le _)
    have hsame := startOf_of_sameLook look (hrest.map_head? .nil (.inl rfl))
    obtain ⟨d', rest', h', hlike, hrest⟩ := alike_caseDecl hp look .nil hrest h (Nat.zero_le _)
    exact ⟨_, rest', .enumCase (hsame.trans hstart) h',
      .leaf (.image Decl.enumCase (fun _ ↦ rfl) hlike), hrest⟩
  | @binding t ts _ d hstart h =>
    obtain ⟨u, us', rfl, look, -, hrest⟩ := hsight.uncons (Nat.zero_le _)
    have hsame := startOf_of_sameLook look (hrest.map_head? .nil (.inl rfl))
    obtain ⟨d', rest', h', hlike, hrest⟩ := alike_bindingDecl hp look .nil hrest h (Nat.zero_le _)
    exact ⟨_, rest', .binding (hsame.trans hstart) h',
      .leaf (.image Decl.binding (fun _ ↦ rfl) hlike), hrest⟩
  | @raw t ts _ d hraw h =>
    obtain ⟨d', rest', h', hlike, hrest'⟩ := alike_rawDecl hp hsight h
    obtain ⟨u, us', rfl, look, -, hrest⟩ := hsight.uncons (Nat.zero_le _)
    have hsame := startOf_of_sameLook look (hrest.map_head? .nil (.inl rfl))
    exact ⟨_, rest', .raw (readsRaw_of_sameSight hp look hrest hsame hraw) h',
      .leaf (.image Decl.raw (fun _ ↦ rfl) hlike), hrest'⟩

theorem alike_opening (hsight : SameSight ts us) {o : Opening}
    (h : opening ts = .ok (o, rest)) :
    ∃ o' rest', opening us = .ok (o', rest') ∧ OpeningAlike o o' ∧ SameSight rest rest' := by
  obtain ⟨p, ts₁, hp, h⟩ := opening_eq_ok.1 h
  obtain ⟨p', us₁, hp', hlike, hsight⟩ := alike_preamble .nil hsight hp (.inl rfl)
  obtain ⟨o', rest', h', halike, hrest⟩ := alike_openingRead hlike hsight h
  exact ⟨o', rest', opening_eq_ok.2 ⟨p', us₁, hp', h'⟩, halike, hrest⟩

/-! ### Items -/

theorem atBlockEnd_of_sameSight (hsight : SameSight ts us) : atBlockEnd us = atBlockEnd ts := by
  cases ts with
  | nil =>
    obtain rfl : us = [] := (hsight.toEdge .nil).nil_iff.1 rfl
    rfl
  | cons t ts =>
    obtain ⟨u, us', rfl, look, -, -⟩ := hsight.uncons (Nat.zero_le _)
    simp [atBlockEnd, look.kind]

theorem alike_withSemicolon {d d' : Decl} (hd : Like d d') (hsight : SameSight ts us) :
    Like (withSemicolon d ts).1 (withSemicolon d' us).1 ∧
      SameSight (withSemicolon d ts).2 (withSemicolon d' us).2 := by
  obtain ⟨hlike, hrest⟩ :=
    alike_takeKind (k := .semicolon) rfl .nil hsight (Nat.zero_le _)
  exact ⟨.image (fun p : Decl × Option Token ↦ Member.mk p.1 p.2) (fun _ ↦ rfl) (hd.pair hlike),
    hrest⟩

theorem like_withBlock {head : GroupHead} {o' : Opening} (h : OpeningAlike (.group head) o')
    {left left' right right' : Token} (hleft : left.SameLook left') (hright : right.SameLook right')
    {ms ms' : List Member} (hms : Like ms ms') :
    ∃ head', o' = .group head' ∧
      Like (head.withBlock ⟨left, ms, right⟩) (head'.withBlock ⟨left', ms', right'⟩) := by
  have hblock : Like (MemberBlock.mk left ms right) ⟨left', ms', right'⟩ := by
    rw [Like, MemberBlock.mapTokens_mk, MemberBlock.mapTokens_mk, Node.like_list_iff.1 hms,
      hleft.bare, hright.bare]
  cases h with
  | enum h =>
    exact ⟨_, rfl, .image (fun p : NominalHead × MemberBlock ↦ Decl.enum ⟨p.1, p.2⟩) (fun _ ↦ rfl)
      (h.pair hblock)⟩
  | nominal h =>
    exact ⟨_, rfl, .image (fun p : NominalHead × MemberBlock ↦ Decl.nominal ⟨p.1, p.2⟩)
      (fun _ ↦ rfl) (h.pair hblock)⟩
  | extension h =>
    exact ⟨_, rfl, .image (fun p : ExtensionHead × MemberBlock ↦ Decl.extension ⟨p.1, p.2⟩)
      (fun _ ↦ rfl) (h.pair hblock)⟩

/-- Items are read alike from lists that look the same. -/
theorem alike_itemsRead (hsight : SameSight ts us) {ms : List Member} {last : List Token}
    (h : ItemsRead ts ms last) :
    ∃ ms' last', ItemsRead us ms' last' ∧ Like ms ms' ∧ SameSight last last' := by
  induction h generalizing us with
  | done hend =>
    exact ⟨[], us, .done ((atBlockEnd_of_sameSight hsight).trans hend), .refl _, hsight⟩
  | leaf hend hopen _ ih =>
    obtain ⟨o', after', hopen', halike, hafter⟩ := alike_opening hsight hopen
    cases halike with
    | leaf hlike =>
      obtain ⟨hmember, hnext⟩ := alike_withSemicolon hlike hafter
      obtain ⟨ms', last', hread, hlikes, hlast⟩ := ih hnext
      exact ⟨_, last', .leaf ((atBlockEnd_of_sameSight hsight).trans hend) hopen' hread,
        .cons hmember hlikes, hlast⟩
  | group hend hopen hleft _ hright _ ihblock ih =>
    obtain ⟨o', after', hopen', halike, hafter⟩ := alike_opening hsight hopen
    obtain ⟨left', inner', hleft', lookleft, hinner, -⟩ :=
      alike_expect hafter hleft (Nat.zero_le _)
    obtain ⟨members', closing', hmembers', hlikemembers, hclosing⟩ := ihblock hinner
    obtain ⟨right', outer', hright', lookright, houter, -⟩ :=
      alike_expect hclosing hright (Nat.zero_le _)
    obtain ⟨head', rfl, hlike⟩ := like_withBlock halike lookleft lookright hlikemembers
    obtain ⟨hmember, hnext⟩ := alike_withSemicolon hlike houter
    obtain ⟨ms', last', hread, hlikes, hlast⟩ := ih hnext
    exact ⟨_, last', .group ((atBlockEnd_of_sameSight hsight).trans hend) hopen' hleft' hmembers'
      hright' hread, .cons hmember hlikes, hlast⟩

end

end EnumForge.Grammar
