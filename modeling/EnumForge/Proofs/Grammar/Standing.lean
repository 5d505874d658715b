import EnumForge.Proofs.Grammar.Sight
import EnumForge.Proofs.Token.Exchange

/-!
# Cases in other company

A case declaration that was read once is read again wherever it ends: before its semicolon, or
before an item on the next line.  So cases that are picked out of a block can be read one after
another, and a head is read before another block.
-/

namespace EnumForge

open Node (Like)
open Token (Ready)

namespace Grammar

section

variable {bs bs' ts us rest : List Token}

theorem Agree.length_le (h : Agree bs bs' ts us) : bs.length ≤ ts.length := by
  induction h with
  | edge => exact Nat.le_refl _
  | cons _ _ _ ih => exact Nat.le_succ_of_le ih

/-- What is left where the lists part is left on the other side too. -/
theorem Agree.eq_right (h : Agree bs bs' bs us) : us = bs' := by
  generalize hts : bs = ts at h
  cases h with
  | edge => rfl
  | cons _ _ h =>
    have hle := h.length_le
    rw [List.length_cons] at hle
    omega

/-! ### Heads of enums -/

theorem length_lt_of_nominalHead {expected : String} {p : Preamble} {keyword : Token}
    {head : NominalHead} (h : nominalHead expected p keyword ts = .ok (head, rest)) :
    rest.length < ts.length := by
  obtain ⟨⟨name, ts₁⟩, hname, h⟩ := bind_eq_ok.1 h
  obtain ⟨⟨gen, ts₂⟩, hgen, h⟩ := bind_eq_ok.1 h
  obtain ⟨⟨inh, ts₃⟩, hinh, h⟩ := bind_eq_ok.1 h
  obtain ⟨-, rfl⟩ := ok_pair_inj.1 h
  have hlt := length_lt_of_expect hname
  have hle₁ := length_le_of_append (reads_generics _ _ _ hgen)
  have hle₂ := length_le_of_append (reads_inheritance _ _ _ hinh)
  have hle₃ := length_le_of_append (whereClause_append ts₃)
  omega

/-- The head of an enum is read alike before another block. -/
theorem opening_enum {run : List Token} {head : NominalHead} (hb : AtBlock bs bs')
    (h : opening (run ++ bs) = .ok (.group (.enum head), bs)) :
    ∃ head', opening (run ++ bs') = .ok (.group (.enum head'), bs') ∧ Like head head' := by
  obtain ⟨p, ts₁, hp, hread⟩ := opening_eq_ok.1 h
  cases hread with
  | @enum t ts _ _ hstart hhead =>
    have hlt := length_lt_of_nominalHead hhead
    obtain ⟨p', us₁, hp', hlike, hagree⟩ := alike_preamble hb.edge (.append_left run .edge) hp
      (.inr (by rw [List.length_cons]; omega))
    obtain ⟨u, us, rfl, look, -, hrest⟩ := hagree.uncons hlt.le
    have hnext := startOf_of_sameLook look (hrest.map_head? hb.edge (.inr hlt))
    obtain ⟨head', rest', hhead', hlike', hagree'⟩ :=
      alike_nominalHead hlike look hb hrest hhead (Nat.le_refl _)
    obtain rfl := hagree'.eq_right
    exact ⟨head', opening_eq_ok.2 ⟨p', _, hp', .enum (hnext.trans hstart) hhead'⟩, hlike'⟩

/-! ### Case declarations -/

theorem length_lt_of_caseDecl {p : Preamble} {keyword : Token} {d : CaseDecl}
    (h : caseDecl p keyword ts = .ok (d, rest)) : rest.length < ts.length := by
  have helements {es : List CaseElement} {ts rest : List Token}
      (h : caseElements ts = .ok (es, rest)) : rest.length < ts.length := by
    fun_induction caseElements ts generalizing es rest with
    | case1 | case2 => simp at h
    | case3 ts e rest₁ he _ es₁ rest₂ hrest₁ _ =>
      obtain ⟨-, rfl⟩ := ok_pair_inj.1 h
      have hle := length_le_of_append (reads_caseElements _ _ _ hrest₁)
      exact Nat.lt_of_le_of_lt hle (length_lt_of_caseElement he)
    | case4 ts e rest₁ he =>
      obtain ⟨-, rfl⟩ := ok_pair_inj.1 h
      exact length_lt_of_caseElement he
  obtain ⟨⟨es, ts₁⟩, hes, h⟩ := bind_eq_ok.1 h
  dsimp only at h
  split at h
  · obtain ⟨-, rfl⟩ := ok_pair_inj.1 h
    exact helements hes
  · simp [throw, throwThe, MonadExceptOf.throw] at h

/-- A case declaration is read alike before other tokens that it ends at. -/
theorem opening_enumCase {run : List Token} {d : CaseDecl} (hb : Edge bs bs')
    (h : opening (run ++ bs) = .ok (.leaf (.enumCase d), bs)) :
    ∃ d', opening (run ++ bs') = .ok (.leaf (.enumCase d'), bs') ∧ Like d d' := by
  obtain ⟨p, ts₁, hp, hread⟩ := opening_eq_ok.1 h
  cases hread with
  | @enumCase t ts _ _ hstart hcase =>
    have hlt := length_lt_of_caseDecl hcase
    obtain ⟨p', us₁, hp', hlike, hagree⟩ := alike_preamble hb (.append_left run .edge) hp
      (.inr (by rw [List.length_cons]; omega))
    obtain ⟨u, us, rfl, look, -, hrest⟩ := hagree.uncons hlt.le
    have hnext := startOf_of_sameLook look (hrest.map_head? hb (.inr hlt))
    obtain ⟨d', rest', hcase', hlike', hagree'⟩ :=
      alike_caseDecl hlike look hb hrest hcase (Nat.le_refl _)
    obtain rfl := hagree'.eq_right
    exact ⟨d', opening_eq_ok.2 ⟨p', _, hp', .enumCase (hnext.trans hstart) hcase'⟩, hlike'⟩

/-- How a case declaration starts. -/
theorem starts_of_enumCase {t : Token} {d : CaseDecl}
    (h : opening (t :: ts) = .ok (.leaf (.enumCase d), rest)) :
    t.kind = .atSign ∨ (t.kind = .keyword ∨ t.kind = .identifier) ∧
      (t.text = "case" ∨ t.text ∈ groupWords) := by
  obtain ⟨p, ts₁, hp, hread⟩ := opening_eq_ok.1 h
  obtain ⟨ts₂, has, hms⟩ := preamble_eq_ok.1 hp
  by_cases hat : t.kind = .atSign
  · exact .inl hat
  refine .inr ?_
  rw [attributes, if_neg hat] at has
  obtain ⟨-, rfl⟩ := ok_pair_inj.1 has
  by_cases hmodifier : isModifier t ts.head? = true
  · have hkind : t.kind = .keyword ∨ t.kind = .identifier := by
      simp only [isModifier, Bool.and_eq_true, Bool.or_eq_true, beq_iff_eq] at hmodifier
      exact hmodifier.1
    exact ⟨hkind, .inr (mem_groupWords_of_isModifier hmodifier)⟩
  · rw [modifiers, if_neg hmodifier] at hms
    obtain ⟨-, rfl⟩ := ok_pair_inj.1 hms
    cases hread with
    | enumCase hstart _ =>
      unfold startOf at hstart
      split at hstart
      · simp at hstart
      split at hstart
      · simp at hstart
      next hkind =>
        refine ⟨.inl (not_not.1 hkind), .inl ?_⟩
        by_contra hcase
        simp only [hcase, if_false] at hstart
        repeat' split at hstart
        all_goals simp at hstart

end

end Grammar

open Grammar (ItemsRead opening Edge)

/-- A case declaration as it was read, before tokens that end it. -/
structure Member.Standing (m : Member) : Prop where
  starts : ∃ t ts, Node.tokens m = t :: ts ∧ t.StartsSoft ∧ t.startsItem = true
  reads : ∃ d o os, m.decl = .enumCase d ∧
    opening (Node.tokens d ++ (Node.tokens m.semicolon ++ o :: os)) =
      .ok (.leaf (.enumCase d), Node.tokens m.semicolon ++ o :: os)
  semicolon : ∀ s ∈ m.semicolon, s.kind = .semicolon
  ready : ∃ o os, Ready (Node.tokens m ++ o :: os)

namespace Grammar

theorem startsSoft_of_enumCase {t : Token} {ts rest : List Token} {d : CaseDecl} {e : Token}
    (h : opening (t :: ts) = .ok (.leaf (.enumCase d), rest)) (hready : Ready (t :: (ts ++ [e]))) :
    t.StartsSoft ∧ t.startsItem = true := by
  rcases starts_of_enumCase h with hat | ⟨hkind, htext⟩
  · refine ⟨?_, by simp [Token.startsItem, hat]⟩
    have hpunctuation := Token.isPunctuation_of_mem hready.spelled List.mem_cons_self
      (by simp [hat, Token.punctuationKinds])
    exact hpunctuation.startsSoft hat
  · have hword : t.text ≠ "where" := by
      rintro hwhere
      rw [hwhere] at htext
      revert htext
      decide
    refine ⟨?_, ?_⟩
    · rcases htext with hcase | hword
      · exact ⟨'c', "ase".toList, by rw [hcase]; rfl, .inr (by decide)⟩
      · exact startsSoft_of_mem_groupWords hword
    · rcases hkind with hkind | hkind <;> simp [Token.startsItem, hkind, hword]

theorem ready_rest {m : Member} {ms : List Member} {ts last : List Token} {e : Token}
    (hts : Member.listTokens (m :: ms) ++ last = ts) (hlast : last ≠ [])
    (hready : Ready (ts ++ [e])) :
    ∃ o os, Member.listTokens ms ++ last = o :: os ∧ Ready (Node.tokens m ++ o :: (os ++ [e])) ∧
      Ready (o :: (os ++ [e])) := by
  have hne : Member.listTokens ms ++ last ≠ [] := fun hnil ↦
    hlast (List.append_eq_nil_iff.1 hnil).2
  obtain ⟨o, os, ho⟩ := List.exists_cons_of_ne_nil hne
  rw [Member.listTokens, List.append_assoc, ho] at hts
  rw [← hts, List.append_assoc] at hready
  exact ⟨o, os, ho, hready, hready.of_append⟩

/-- The cases of a block that was read. -/
theorem ItemsRead.standing {ts last : List Token} {ms : List Member} (h : ItemsRead ts ms last)
    (hlast : last ≠ []) {e : Token} (hready : Ready (ts ++ [e])) :
    ∀ m ∈ ms, m.decl.isEnumCase = true → m.Standing := by
  induction h with
  | done => simp
  | @leaf ts after last d ms hend hopen hrest ih =>
    have hall := (ItemsRead.leaf hend hopen hrest).tokens_append
    obtain ⟨o, os, ho, hready', hready₁⟩ := ready_rest hall hlast hready
    rw [hrest.tokens_append] at ho
    intro m hm hcase
    rcases List.mem_cons.1 hm with rfl | hm
    · cases d with
      | enumCase d =>
        have hafter : after = Node.tokens (takeKind .semicolon after).1 ++ o :: os := by
          rw [← ho]
          exact (takeKind_append .semicolon after).symm
        have hts : Node.tokens d ++ after = ts := (append_of_opening hopen).1
        obtain ⟨t, ts', ht⟩ : ∃ t ts', Node.tokens d = t :: ts' :=
          List.exists_cons_of_ne_nil (by simp [Node.tokens])
        have hsoft : t.StartsSoft ∧ t.startsItem = true := by
          rw [← hts, ht] at hopen hready
          exact startsSoft_of_enumCase hopen hready
        have hstarts := congrArg (· ++ Node.tokens (takeKind .semicolon after).1) ht
        refine ⟨⟨t, ts' ++ Node.tokens (takeKind .semicolon after).1, hstarts, hsoft⟩,
          ⟨d, o, os, rfl, ?_⟩, fun s hs ↦ kind_of_takeKind hs, ⟨o, _, hready'⟩⟩
        rw [← hts, hafter] at hopen
        exact hopen
      | enum | nominal | extension | binding | raw => simp [withSemicolon, Decl.isEnumCase] at hcase
    · exact ih hlast (by rwa [ho]) m hm hcase
  | @group ts after inner closing outer last head left right members ms hend hopen hleft hblock
      hright hrest _ ih =>
    have hall := (ItemsRead.group hend hopen hleft hblock hright hrest).tokens_append
    obtain ⟨o, os, ho, -, hready₁⟩ := ready_rest hall hlast hready
    rw [hrest.tokens_append] at ho
    intro m hm hcase
    rcases List.mem_cons.1 hm with rfl | hm
    · cases head <;> simp [withSemicolon, GroupHead.withBlock, Decl.isEnumCase] at hcase
    · exact ih hlast (by rwa [ho]) m hm hcase

end Grammar

/-! ### Cases one after another -/

/-- Whether the member is over before `n` starts: the reader sees its end, and neither its text nor
a comment behind it goes on over `n`. -/
def Member.endsBefore (m n : Member) : Bool :=
  (m.semicolon.isSome || (Node.leading n).hasNewline) &&
    (Node.tokens m).getLast?.all fun z ↦ (Node.tokens n).head?.all fun t ↦ !z.runsInto t

namespace Grammar

theorem itemsRead_standing {kept : List Member} (hkept : ∀ m ∈ kept, m.Standing)
    (hchain : kept.IsChain fun m n ↦ m.endsBefore n = true) {y : Token} {ys last : List Token}
    {ms : List Member} (hitem : y.startsItem = true) (hline : y.startsLine = true)
    (hrest : ItemsRead (y :: ys) ms last) :
    ∃ kept', ItemsRead (Member.listTokens kept ++ y :: ys) (kept' ++ ms) last ∧
      Like kept kept' := by
  induction kept with
  | nil => exact ⟨[], hrest, .refl _⟩
  | cons m kept ih =>
    obtain ⟨hm, hkept⟩ := List.forall_mem_cons.1 hkept
    obtain ⟨kept', hread, hlike⟩ := ih hkept hchain.tail
    -- The token that comes to stand behind the member starts an item, on a new line if need be.
    obtain ⟨w, ws, hw, hwitem, hwline⟩ : ∃ w ws, Member.listTokens kept ++ y :: ys = w :: ws ∧
        w.startsItem = true ∧ (m.semicolon.isSome = true ∨ w.startsLine = true) := by
      cases kept with
      | nil => exact ⟨y, ys, rfl, hitem, .inr hline⟩
      | cons n kept =>
        obtain ⟨t, ts, ht, -, htitem⟩ := (hkept n List.mem_cons_self).starts
        have hends := (List.isChain_cons_cons.1 hchain).1
        simp only [Member.endsBefore, Bool.and_eq_true, Bool.or_eq_true] at hends
        have hleading : Node.leading n = t.leading := by
          rw [Node.leading, ht]
          rfl
        rw [hleading] at hends
        refine ⟨t, ts ++ (Member.listTokens kept ++ y :: ys), ?_, htitem, hends.1⟩
        rw [Member.listTokens, List.append_assoc]
        exact congrArg (· ++ (Member.listTokens kept ++ y :: ys)) ht
    obtain ⟨decl, semicolon⟩ := m
    obtain ⟨d, o, os, rfl, hopen⟩ := hm.reads
    have hedge : Edge (Node.tokens semicolon ++ o :: os) (Node.tokens semicolon ++ w :: ws) := by
      cases semicolon with
      | none => exact .line hwitem (by simpa using hwline)
      | some s => exact .same (.refl s)
    obtain ⟨d', hopen', hlike'⟩ := opening_enumCase hedge hopen
    have hwith : withSemicolon (.enumCase d') (Node.tokens semicolon ++ w :: ws) =
        (⟨.enumCase d', semicolon⟩, w :: ws) := by
      cases semicolon with
      | none =>
        have hw := kind_ne_of_startsItem (k := .semicolon) rfl hwitem
        simp [withSemicolon, takeKind, Node.tokens, hw]
      | some s =>
        have hs := hm.semicolon s rfl
        simp [withSemicolon, takeKind, Node.tokens, hs]
    have hstart : atBlockEnd (Node.tokens d ++ (Node.tokens semicolon ++ w :: ws)) = false := by
      obtain ⟨t, ts, ht, -, htitem⟩ := hm.starts
      have htokens : Node.tokens d ++ (Node.tokens semicolon ++ w :: ws) =
          t :: (ts ++ w :: ws) := by
        rw [← List.append_assoc]
        exact congrArg (· ++ w :: ws) ht
      rw [htokens]
      simpa [atBlockEnd] using kind_ne_of_startsItem (k := .rightBrace) rfl htitem
    have hnext : ItemsRead (withSemicolon (.enumCase d')
        (Node.tokens semicolon ++ w :: ws)).2 (kept' ++ ms) last := by
      rwa [hwith, ← hw]
    refine ⟨⟨.enumCase d', semicolon⟩ :: kept', ?_, .cons ?_ hlike⟩
    · have hall := ItemsRead.leaf hstart hopen' hnext
      rw [hwith] at hall
      rw [Member.listTokens, List.append_assoc, hw, Member.tokens, List.append_assoc]
      exact hall
    · exact .image (fun p : CaseDecl × Option Token ↦ Member.mk (.enumCase p.1) p.2) (fun _ ↦ rfl)
        (hlike'.pair (.refl semicolon))

end Grammar

namespace Member

theorem Standing.exists_last {m : Member} (h : m.Standing) :
    ∃ ts z, Node.tokens m = ts ++ [z] := by
  obtain ⟨t, ts, ht, -⟩ := h.starts
  rw [ht]
  exact ⟨_, _, (List.dropLast_append_getLast (by simp)).symm⟩

/-- Cases keep apart from one another, and from the token that comes to stand behind them. -/
theorem ready_standing {kept : List Member} (hkept : ∀ m ∈ kept, m.Standing)
    (hchain : kept.IsChain fun m n ↦ m.endsBefore n = true) {n : Token} {ns : List Token}
    (hn : Ready (n :: ns)) (hsoft : n.StartsSoft)
    (hlast : ∀ m ∈ kept.getLast?, ∀ z ∈ (Node.tokens m).getLast?, z.runsInto n = false) :
    ∃ w ws, listTokens kept ++ n :: ns = w :: ws ∧ Ready (w :: ws) ∧ w.StartsSoft ∧
      (kept = [] ∧ w = n ∨ ∃ m ∈ kept.head?, w ∈ (Node.tokens m).head?) := by
  induction kept with
  | nil => exact ⟨n, ns, rfl, hn, hsoft, .inl ⟨rfl, rfl⟩⟩
  | cons m kept ih =>
    obtain ⟨hm, hkept⟩ := List.forall_mem_cons.1 hkept
    have hlast' : ∀ m ∈ kept.getLast?, ∀ z ∈ (Node.tokens m).getLast?, z.runsInto n = false := by
      intro l hl
      refine hlast l ?_
      cases kept with
      | nil => simp at hl
      | cons k kept => rwa [List.getLast?_cons_cons]
    obtain ⟨w, ws, hw, hready, hwsoft, hhead⟩ := ih hkept hchain.tail hlast'
    obtain ⟨ts, z, hz⟩ := hm.exists_last
    have hrun : z.runsInto w = false := by
      rcases hhead with ⟨rfl, rfl⟩ | ⟨k, hk, hwk⟩
      · exact hlast m rfl z (by simp [hz])
      · obtain ⟨rest, rfl⟩ := List.head?_eq_some_iff.1 hk
        have hends := (List.isChain_cons_cons.1 hchain).1
        simpa [endsBefore, hz, Option.mem_def.1 hwk] using (Bool.and_eq_true_iff.1 hends).2
    obtain ⟨o, os, hbefore⟩ := hm.ready
    obtain ⟨t, ts', ht, htsoft, -⟩ := hm.starts
    rw [hz, List.append_assoc] at hbefore
    have hstep := Token.InStep.exchange hbefore.of_append hready hwsoft hrun
    have hall := hbefore.append_step hstep rfl
    have htokens : ts ++ z :: w :: ws = t :: (ts' ++ w :: ws) := by
      rw [← List.cons_append, ← ht, hz, List.append_assoc]
      rfl
    refine ⟨t, ts' ++ w :: ws, ?_, htokens ▸ hall, htsoft, .inr ⟨m, rfl, by rw [ht]; rfl⟩⟩
    rw [listTokens, List.append_assoc, hw, ← List.cons_append, ← ht]
    rfl

end Member

end EnumForge
