import EnumForge.Proofs.AppEnum.Keeping
import EnumForge.Proofs.AppEnum.Reparsing
import EnumForge.Proofs.Grammar.Standing

/-!
# Cases without the members between them

A replacement leaves out the members between the cases of an enum, and with them the line breaks
and semicolons that kept the cases apart.  Where each case is over before the next one starts, the
text is still that of an enum with all the cases.  Where it is not, cases are lost: one on the line
of a member that is left out is glued to the case before it.
-/

namespace EnumForge

open Node (Like)
open Token (Ready Spelled bodyChars listChars)
open Grammar (ItemsRead SameSight AtBlock opening)

/-! ### Texts without the trivia around them -/

theorem Token.bodyChars_append {ts : List Token} (hne : ts ≠ []) (us : List Token) :
    bodyChars (ts ++ us) = bodyChars ts ++ listChars us := by
  obtain ⟨t, ts, rfl⟩ := List.exists_cons_of_ne_nil hne
  simp [bodyChars]

theorem Node.toList_trimmedTokens (ts : List Token) (z : Token) :
    (trimmedTokens (ts ++ [z])).toList = bodyChars (ts ++ [z.withTrailing .empty]) := by
  induction ts with
  | nil => simp [trimmedTokens, bodyChars, Token.withTrailing]
  | cons t ts ih =>
    cases ts with
    | nil => simp [trimmedTokens, bodyChars, Token.withTrailing]
    | cons u us =>
      simp only [List.cons_append] at ih ⊢
      rw [trimmedTokens, bodyChars, Token.listChars_eq_bodyChars, ← ih]
      simp

theorem Token.listChars_cons_of_detached {t u : Token} (h : t.detached = u.detached)
    (ts : List Token) : listChars (t :: ts) = listChars (u :: ts) := by
  rw [← listChars_map_detached, List.map_cons, h, ← List.map_cons, listChars_map_detached]

/-! ### Enums in a text -/

/-- The case declarations among the members. -/
def MemberBlock.caseMembers (b : MemberBlock) : List Member :=
  b.members.filter (·.decl.isEnumCase)

theorem MemberBlock.tokens_setTrailing (b : MemberBlock) (trivia : Trivia) :
    Node.tokens (Node.setTrailing trivia b) =
      b.leftBrace :: (Member.listTokens b.members ++ [b.rightBrace.withTrailing trivia]) := by
  have htokens : Node.tokens b = (b.leftBrace :: Member.listTokens b.members) ++ [b.rightBrace] :=
    b.tokens_eq
  exact b.hasShape.tokens_setTrailing_concat trivia htokens

theorem NominalHead.tokens_ne_nil (h : NominalHead) : Node.tokens h ≠ [] := by
  simp [Node.tokens]

theorem exists_enum_of_like {d : NominalDecl} {d' : Decl} (h : Like (Decl.enum d) d') :
    ∃ e, d' = .enum e ∧ Like d.block.members e.block.members := by
  have henum : some (Node.mapTokens Token.bare d) = (Node.mapTokens Token.bare d').enum? :=
    congrArg Decl.enum? h
  cases d' with
  | enum e => exact ⟨e, rfl, (NominalDecl.like_parts (Option.some.inj henum)).2⟩
  | nominal | extension | enumCase | binding | raw => cases henum

/-- An enum as it stands in a text: `inner` are the tokens from its members on, and `e` is the end
of the text. -/
structure NominalDecl.EnumRead (d : NominalDecl) (inner : List Token) (e : Token) : Prop where
  first : ∃ t ts, Node.tokens d.head = t :: ts ∧ t.kind ≠ .rightBrace ∧
    TokenStream.StartsFile t.leading
      (bodyChars (t :: (ts ++ d.block.leftBrace :: (inner ++ [e]))))
  spelled : Spelled (Node.tokens d.head ++ d.block.leftBrace :: (inner ++ [e]))
  opens : opening (Node.tokens d.head ++ d.block.leftBrace :: inner) =
    .ok (.group (.enum d.head), d.block.leftBrace :: inner)
  leftBrace : d.block.leftBrace.kind = .leftBrace
  rightBrace : d.block.rightBrace.kind = .rightBrace
  members : ∃ after, ItemsRead inner d.block.members (d.block.rightBrace :: after)

/-- How an enum was read that takes up all the tokens. -/
theorem Grammar.ItemsRead.of_enum {ts : List Token} {d : NominalDecl} {semicolon : Option Token}
    (h : ItemsRead ts [⟨.enum d, semicolon⟩] []) : ∃ inner outer,
      ts = Node.tokens d.head ++ d.block.leftBrace :: inner ∧ Grammar.atBlockEnd ts = false ∧
      opening ts = .ok (.group (.enum d.head), d.block.leftBrace :: inner) ∧
      d.block.leftBrace.kind = .leftBrace ∧ d.block.rightBrace.kind = .rightBrace ∧
      ItemsRead inner d.block.members (d.block.rightBrace :: outer) := by
  generalize hms : [Member.mk (.enum d) semicolon] = ms at h
  cases h with
  | done => simp at hms
  | leaf hend hopen hrest =>
    obtain rfl : _ = Decl.enum d := congrArg Member.decl (List.cons.inj hms).1.symm
    obtain ⟨p, ts₁, -, hread⟩ := opening_eq_ok.1 hopen
    cases hread
  | @group _ after inner closing outer _ head left right members ms hend hopen hleft hblock hright
      hrest =>
    have hdecl : head.withBlock ⟨left, members, right⟩ = .enum d :=
      congrArg Member.decl (List.cons.inj hms).1.symm
    cases head with
    | enum head =>
      obtain rfl : (⟨head, ⟨left, members, right⟩⟩ : NominalDecl) = d := by
        simpa [GroupHead.withBlock] using hdecl
      obtain rfl : left :: inner = after := reads_expect _ _ _ _ _ hleft
      obtain rfl : right :: outer = closing := reads_expect _ _ _ _ _ hright
      exact ⟨inner, outer, (append_of_opening hopen).1.symm, hend, hopen, kind_of_expect hleft,
        kind_of_expect hright, hblock⟩
    | nominal | extension => simp [GroupHead.withBlock] at hdecl

/-- An enum with its block is all there is to read. -/
theorem Grammar.itemsRead_enum {ts inner : List Token} {head : NominalHead} {left right : Token}
    {ms : List Member} (hend : atBlockEnd ts = false)
    (hopen : opening ts = .ok (.group (.enum head), left :: inner)) (hleft : left.kind = .leftBrace)
    (hread : ItemsRead inner ms [right]) (hright : right.kind = .rightBrace) :
    ItemsRead ts [⟨.enum ⟨head, ⟨left, ms, right⟩⟩, none⟩] [] := by
  have hleft' : expect .leftBrace "`\x7b`" (left :: inner) = .ok (left, inner) := by
    rw [expect, if_pos hleft]
  have hright' : expect .rightBrace "`\x7d`" [right] = .ok (right, []) := by
    rw [expect, if_pos hright]
  exact .group hend hopen hleft' hread hright' (.done rfl)

theorem NominalDecl.enumRead_of_parseSource {source : String} {f : SourceFile} {d : NominalDecl}
    {semicolon : Option Token} (hf : parseSource source = .ok f)
    (hitems : f.items = [⟨.enum d, semicolon⟩]) : ∃ inner, d.EnumRead inner f.endOfFile ∧
      ItemsRead inner d.block.members (d.block.rightBrace :: Node.tokens semicolon) := by
  obtain ⟨s, hs, hread, hendOfFile⟩ := parseSource_eq_ok.1 hf
  rw [hitems] at hread
  obtain ⟨inner, outer, htokens, hend, hopen, hleft, hright, hmembers⟩ := hread.of_enum
  rw [htokens] at hend hopen
  obtain ⟨t, ts, ht⟩ := List.exists_cons_of_ne_nil d.head.tokens_ne_nil
  obtain ⟨u, us, hlist, hspelled, hstart⟩ := TokenStream.spelled_of_ofSource hs
  have hall : u :: us = Node.tokens d.head ++ d.block.leftBrace :: (inner ++ [s.endOfFile]) := by
    rw [← hlist, TokenStream.toList, htokens, List.append_assoc]
    rfl
  have houter : outer = Node.tokens semicolon := by
    have hparts : Member.listTokens [⟨.enum d, semicolon⟩] =
        Node.tokens d ++ Node.tokens semicolon := by
      rw [Member.listTokens, Member.listTokens, List.append_nil]
      rfl
    have hall := hread.tokens_append
    rw [hparts, d.tokens_eq, d.block.tokens_eq, htokens, ← hmembers.tokens_append] at hall
    simpa using hall.symm
  subst houter
  rw [hendOfFile]
  refine ⟨inner, ⟨⟨t, ts, ht, ?_, ?_⟩, hall ▸ hspelled, hopen, hleft, hright, _, hmembers⟩,
    hmembers⟩
  · simpa [Grammar.atBlockEnd, ht] using hend
  · rw [ht] at hall
    obtain ⟨rfl, rfl⟩ := List.cons.inj hall
    exact hstart

theorem NominalDecl.enumRead_of_parseDecl {source : String} {d : NominalDecl}
    (h : parseDecl source = .ok (.enum d)) : ∃ inner e, d.EnumRead inner e := by
  obtain ⟨f, ⟨decl, semicolon⟩, hf, hitems, hdecl⟩ := parseDecl_eq_ok.1 h
  obtain rfl : decl = .enum d := hdecl
  obtain ⟨inner, hd, -⟩ := enumRead_of_parseSource hf hitems
  exact ⟨inner, _, hd⟩

section

variable {d : NominalDecl} {inner : List Token} {e : Token} (h : d.EnumRead inner e)
include h

theorem NominalDecl.EnumRead.ready_inner : Ready (inner ++ [e]) := by
  have hspelled := h.spelled
  rw [List.append_cons] at hspelled
  exact Token.ready_of_append hspelled (by simp) (by simp)

theorem NominalDecl.EnumRead.standing : ∀ m ∈ d.block.caseMembers, m.Standing := by
  intro m hm
  obtain ⟨hmem, hcase⟩ := List.mem_filter.1 hm
  obtain ⟨after, hmembers⟩ := h.members
  exact hmembers.standing (by simp) h.ready_inner m hmem hcase

/-- The right brace on a line of its own, at the end of a text. -/
theorem NominalDecl.EnumRead.made_rightBrace (indent : String) :
    ((d.block.rightBrace.onOwnLine indent).withTrailing .empty).Made := by
  obtain ⟨after, hmembers⟩ := h.members
  have hready := h.ready_inner
  rw [← hmembers.tokens_append, List.append_assoc, List.cons_append] at hready
  have hready := hready.of_append
  have hpunctuation := Token.isPunctuation_of_mem hready.spelled List.mem_cons_self
    (by simp [h.rightBrace, Token.punctuationKinds])
  have hbody : bodyChars (d.block.rightBrace :: (after ++ [e])) ≠ [] := by
    obtain ⟨c, htext, -⟩ := hpunctuation
    simp [bodyChars, htext]
  have hmade : ((d.block.rightBrace.withLeading .empty).withTrailing .empty).Made :=
    Token.made_of_isPunctuation hpunctuation rfl rfl
  unfold Token.onOwnLine
  split
  · exact hmade.withLeading (hready.fresh hbody)
  · exact hmade.withLeading (Trivia.fresh_newlinesIndent 0 indent)

/-- The head of the enum before another block. -/
theorem NominalDecl.EnumRead.parseDecl_withBlock {us vs ws : List Token} {w right : Token}
    {ms : List Member} (hws : vs ++ [Token.endOfText] = w :: ws) (hready : Ready (w :: ws))
    (hsoft : w.StartsSoft) (hrun : d.block.leftBrace.runsInto w = false) (hsight : SameSight us vs)
    (hread : ItemsRead us ms [right]) (hright : right.kind = .rightBrace) :
    ∃ d', parseDecl (String.ofList
        (listChars (Node.tokens d.head ++ d.block.leftBrace :: vs))) = .ok (.enum d') ∧
      Like ms d'.block.members := by
  obtain ⟨t, ts, ht, hkind, hstart⟩ := h.first
  obtain ⟨o, os, ho⟩ := List.exists_cons_of_ne_nil (l := inner ++ [e]) (by simp)
  have hspelled := h.spelled
  rw [ho] at hspelled hstart
  have hbrace := Token.ready_of_append hspelled d.head.tokens_ne_nil (by simp)
  have hstep := (Token.InStep.exchange hbrace hready hsoft hrun).append rfl hspelled
  rw [ht, List.cons_append, List.cons_append] at hstep
  have hstart' := (Token.StandsFor.inStep hstep rfl).startsFile hstart
  have hlist : ts ++ d.block.leftBrace :: w :: ws =
      (ts ++ d.block.leftBrace :: vs) ++ [Token.endOfText] := by
    simp [hws]
  rw [hlist] at hstep hstart'
  -- The reader comes to the new block as it came to the old one.
  have hblock : AtBlock (d.block.leftBrace :: inner) (d.block.leftBrace :: us) :=
    .brace (.refl _) h.leftBrace
  obtain ⟨head, hopen, -⟩ := Grammar.opening_enum hblock h.opens
  have hend : Grammar.atBlockEnd (Node.tokens d.head ++ d.block.leftBrace :: us) = false := by
    simpa [Grammar.atBlockEnd, ht] using hkind
  have hitems := Grammar.itemsRead_enum hend hopen h.leftBrace hread hright
  have hsight' : SameSight (Node.tokens d.head ++ d.block.leftBrace :: us)
      (t :: (ts ++ d.block.leftBrace :: vs)) := by
    rw [ht]
    exact .append_left (t :: ts) (.cons (.refl _) (.inl rfl) hsight)
  obtain ⟨d', hparse, hlike, -⟩ := parseDecl_of_spelled hstep.spelled hstart' hsight' hitems
  rw [ht]
  obtain ⟨d', rfl, hmembers⟩ := exists_enum_of_like hlike
  exact ⟨d', hparse, hmembers⟩

end

/-! ### The cases alone -/

namespace MemberBlock

/-- The cases keep apart without the other members: each is over before the next one starts, and
nothing behind the opening brace goes on over the first. -/
def CasesApart (b : MemberBlock) : Prop :=
  (b.caseMembers.head?.all fun m ↦
      (Node.tokens m).head?.all fun t ↦ !b.leftBrace.runsInto t) = true ∧
    b.caseMembers.IsChain fun m n ↦ m.endsBefore n = true

instance (b : MemberBlock) : Decidable b.CasesApart := inferInstanceAs (Decidable (_ ∧ _))

end MemberBlock

theorem Token.runsInto_congr (z : Token) {t u : Token} (hleading : u.leading = t.leading)
    (htext : u.text = t.text) : z.runsInto u = z.runsInto t := by
  rw [runsInto, runsInto, hleading, htext]

namespace EnumReplacement

theorem modifyLast_concat {α : Type} (f : α → α) (xs : List α) (x : α) :
    modifyLast f (xs ++ [x]) = xs ++ [f x] := by
  have hlength : (xs ++ [x]).length - 1 = xs.length := by simp
  rw [modifyLast, hlength, Node.modify_append_right]
  rfl

/-- The tokens of the cases when the blanks behind the last one are left out. -/
theorem tokens_modifyLast (kept : List Member) {m : Member} {ts : List Token} {z : Token}
    (hm : Node.tokens m = ts ++ [z]) :
    Member.listTokens (modifyLast Node.trimTrailing (kept ++ [m])) =
      Member.listTokens kept ++ (ts ++ [z.withTrailing z.trailing.trimmed]) := by
  have htrailing : Node.trailing m = z.trailing := by simp [Node.trailing, hm]
  have htrim := m.hasShape.tokens_setTrailing_concat (Node.trailing m).trimmed hm
  rw [htrailing] at htrim
  rw [modifyLast_concat, Member.listTokens_append, ← htrim, Member.listTokens, Member.listTokens,
    List.append_nil, Node.trimTrailing, htrailing]
  rfl

section

variable {kept : List Member} (hkept : ∀ m ∈ kept, m.Standing)
include hkept

/-- The blanks behind the last case are not seen. -/
theorem sameSight_modifyLast {ns : List Token} (hns : Grammar.looksBack ns = false) :
    SameSight (Member.listTokens kept ++ ns)
      (Member.listTokens (modifyLast Node.trimTrailing kept) ++ ns) := by
  have hrefl : SameSight ns ns := .of_map_detached rfl
  rcases kept.eq_nil_or_concat with rfl | ⟨before, m, rfl⟩
  · exact hrefl
  rw [List.concat_eq_append] at hkept ⊢
  obtain ⟨ts, z, hz⟩ := (hkept m (by simp)).exists_last
  have hlast : Member.listTokens [m] = ts ++ [z] := by
    rw [← hz, Member.listTokens, Member.listTokens, List.append_nil]
    rfl
  rw [tokens_modifyLast before hz, Member.listTokens_append, hlast]
  simp only [List.append_assoc, List.cons_append, List.nil_append]
  exact .append_left _ (.append_left _ (.cons ⟨rfl, rfl, rfl⟩ (.inr ⟨hns, hns⟩) hrefl))

/-- The cases keep apart from one another and from a token on the next line. -/
theorem ready_modifyLast (hchain : kept.IsChain fun m n ↦ m.endsBefore n = true) {n : Token}
    {ns : List Token} (hn : Ready (n :: ns)) (hsoft : n.StartsSoft)
    (hline : Trivia.endsLine n.leading.text.toList = true) :
    ∃ w ws, Member.listTokens (modifyLast Node.trimTrailing kept) ++ n :: ns = w :: ws ∧
      Ready (w :: ws) ∧ w.StartsSoft ∧ ∀ z : Token,
        (kept.head?.all fun m ↦ (Node.tokens m).head?.all fun t ↦ !z.runsInto t) = true →
          z.runsInto w = false := by
  rcases kept.eq_nil_or_concat with rfl | ⟨before, m, rfl⟩
  · exact ⟨n, ns, rfl, hn, hsoft, fun z _ ↦ z.runsInto_of_endsLine hline⟩
  rw [List.concat_eq_append] at hkept hchain ⊢
  have hm := hkept m (by simp)
  obtain ⟨ts, z, hz⟩ := hm.exists_last
  -- The last case first: only the blanks behind it are gone.
  obtain ⟨o, os, hready⟩ := hm.ready
  rw [hz, List.append_assoc] at hready
  have hlast := hready.append_step (.trim hready.of_append hn hline) rfl
  obtain ⟨t, ts', ht, htsoft, -⟩ := hm.starts
  obtain ⟨u, us, hu, huleading, hutext⟩ : ∃ u us,
      ts ++ z.withTrailing z.trailing.trimmed :: n :: ns = u :: us ∧
        u.leading = t.leading ∧ u.text = t.text := by
    rw [hz] at ht
    cases ts with
    | nil =>
      obtain ⟨rfl, -⟩ := List.cons.inj ht
      exact ⟨_, _, rfl, rfl, rfl⟩
    | cons v ts =>
      obtain ⟨rfl, -⟩ := List.cons.inj ht
      exact ⟨_, _, rfl, rfl, rfl⟩
  rw [hu] at hlast
  have husoft : u.StartsSoft := by
    rw [Token.StartsSoft, hutext]
    exact htsoft
  obtain ⟨hbefore, -, hends⟩ := List.isChain_append.1 hchain
  have hrun : ∀ k ∈ before.getLast?, ∀ y ∈ (Node.tokens k).getLast?, y.runsInto u = false := by
    intro k hk y hy
    rw [y.runsInto_congr huleading hutext]
    simpa [Member.endsBefore, ht, Option.mem_def.1 hy] using
      (Bool.and_eq_true_iff.1 (hends k hk m rfl)).2
  obtain ⟨w, ws, hw, hreadyw, hwsoft, hhead⟩ := Member.ready_standing
    (fun k hk ↦ hkept k (by simp [hk])) hbefore hlast husoft hrun
  refine ⟨w, ws, ?_, hreadyw, hwsoft, fun y hy ↦ ?_⟩
  · rw [tokens_modifyLast before hz, ← hw, ← hu]
    simp
  · -- The first token is that of the first case, also where this is the last one.
    rcases hhead with ⟨rfl, rfl⟩ | ⟨k, hk, hwk⟩
    · rw [y.runsInto_congr huleading hutext]
      simpa [ht] using hy
    · obtain ⟨rest, rfl⟩ := List.head?_eq_some_iff.1 (Option.mem_def.1 hk)
      simpa [Option.mem_def.1 hwk] using hy

end

/-! ### The new block -/

/-- The display members of a replacement. -/
def addedMembers (indent : String) (display : Display.Members) : List Member :=
  ConformanceExtension.memberPair display (Trivia.newlinesIndent 2 indent)
    (Trivia.newlinesIndent 2 indent)

/-- The right brace that ends the text of a replacement. -/
def closingBrace (old : NominalDecl) : Token :=
  (old.block.rightBrace.onOwnLine (Node.indentation old)).withTrailing .empty

theorem kind_closingBrace (old : NominalDecl) :
    (closingBrace old).kind = old.block.rightBrace.kind := by
  have hbare := Token.bare_onOwnLine (Node.indentation old) old.block.rightBrace
  have hkind := congrArg Token.kind hbare
  exact hkind

theorem tokens_rebuiltMembers (b : MemberBlock) (indent : String) (display : Display.Members) :
    Member.listTokens (rebuiltMembers b.members indent display) =
      Member.listTokens (modifyLast Node.trimTrailing b.caseMembers) ++
        Member.listTokens (addedMembers indent display) :=
  Member.listTokens_append _ _

section

variable {old : NominalDecl} {inner : List Token} {e : Token} {indent : String}
  {display : Display.Members}

theorem exists_tokens_addedMembers (hdisplay : Display.membersOf old indent = .ok display) :
    ∃ ts, Member.listTokens (addedMembers indent display) =
      (Token.ofKeyword "static").spaced.withLeading (Trivia.newlinesIndent 2 indent) :: ts := by
  obtain ⟨htype, -⟩ := Display.rereads_of_members hdisplay
  obtain ⟨ts, hts, -⟩ := htype.tokens_bindingMember (Trivia.newlinesIndent 2 indent)
  rw [addedMembers, ConformanceExtension.memberPair, Member.listTokens]
  exact ⟨_, congrArg (· ++ _) hts⟩

variable (hold : old.EnumRead inner e) (hapart : old.block.CasesApart)
  (hdisplay : Display.membersOf old indent = .ok display)
include hold hapart hdisplay

/-- What stands behind the left brace keeps apart. -/
theorem ready_rebuilt : ∃ w ws,
    (Member.listTokens (rebuiltMembers old.block.members indent display) ++ [closingBrace old]) ++
      [Token.endOfText] = w :: ws ∧ Ready (w :: ws) ∧ w.StartsSoft ∧
        old.block.leftBrace.runsInto w = false := by
  have hbrace := (hold.made_rightBrace (Node.indentation old)).last rfl
  have hadded : Ready (Member.listTokens (addedMembers indent display) ++
      [closingBrace old, Token.endOfText]) := by
    have hready := Display.ready_members hdisplay (Trivia.fresh_newlinesIndent 1 indent) 1 indent
      hbrace
    rw [addedMembers, ConformanceExtension.memberPair, Member.listTokens, Member.listTokens,
      Member.listTokens, List.append_nil, List.append_assoc]
    exact hready
  have hsoft : (Token.ofKeyword "static").StartsSoft :=
    Grammar.startsSoft_of_mem_groupWords (by decide)
  obtain ⟨ts, hts⟩ := exists_tokens_addedMembers hdisplay
  rw [hts] at hadded
  obtain ⟨w, ws, hw, hready, hwsoft, hrun⟩ := ready_modifyLast hold.standing hapart.2 hadded
    hsoft (Trivia.endsLine_newlinesIndent 1 indent)
  refine ⟨w, ws, ?_, hready, hwsoft, hrun _ hapart.1⟩
  rw [tokens_rebuiltMembers, ← hw, hts]
  simp

/-- What stands behind the left brace is read as the cases and the display members. -/
theorem itemsRead_rebuilt : ∃ us kept,
    ItemsRead us (kept ++ addedMembers indent display) [closingBrace old] ∧
    SameSight us (Member.listTokens (rebuiltMembers old.block.members indent display) ++
      [closingBrace old]) ∧
    Like old.block.caseMembers kept := by
  obtain ⟨htype, hcase⟩ := Display.rereads_of_members hdisplay
  have hkind : (closingBrace old).kind = .rightBrace :=
    (kind_closingBrace old).trans hold.rightBrace
  have hadded := ConformanceExtension.itemsRead_memberPair htype hcase
    (Trivia.newlinesIndent 2 indent) (Trivia.newlinesIndent 2 indent)
    (Trivia.hasNewline_newlinesIndent 2 indent) hkind
    (Token.startsLine_onOwnLine (Node.indentation old) _)
  obtain ⟨ts, hts⟩ := exists_tokens_addedMembers hdisplay
  rw [← addedMembers, hts] at hadded
  obtain ⟨kept, hread, hlike⟩ := Grammar.itemsRead_standing hold.standing hapart.2
    (y := (Token.ofKeyword "static").spaced.withLeading (Trivia.newlinesIndent 2 indent)) rfl
    (Trivia.hasNewline_newlinesIndent 2 indent) hadded
  refine ⟨_, kept, hread, ?_, hlike⟩
  rw [tokens_rebuiltMembers, List.append_assoc, hts]
  exact sameSight_modifyLast hold.standing rfl

end

/-! ### The text of a replacement -/

/-- The text of `new` is that of an enum with the cases of `old`. -/
def PrintsCases (old new : NominalDecl) : Prop :=
  ∃ d, parseDecl (Node.trimmed new) = .ok (.enum d) ∧ d.block.cases = old.block.cases

/-- The head of `new` is read before the block of `old`, and leaves that block as it is. -/
def FrontReads (old new : NominalDecl) : Prop :=
  ∃ d, parseDecl (Node.trimmed (NominalDecl.mk new.head old.block)) = .ok (.enum d) ∧
    Node.source d = Node.trimmed (NominalDecl.mk new.head old.block) ∧
    (Node.tokens d.block).map Token.detached =
      (Node.tokens (Node.setTrailing .empty old.block)).map Token.detached

theorem trimmed_eq (head : NominalHead) (block : MemberBlock) :
    (Node.trimmed (NominalDecl.mk head block)).toList =
      bodyChars (Node.tokens head) ++ listChars (Node.tokens (Node.setTrailing .empty block)) := by
  have htokens : Node.tokens (NominalDecl.mk head block) =
      (Node.tokens head ++ block.leftBrace :: Member.listTokens block.members) ++
        [block.rightBrace] := by
    simp [NominalDecl.tokens_eq, MemberBlock.tokens_eq]
  rw [Node.trimmed, htokens, Node.toList_trimmedTokens, List.append_assoc,
    Token.bodyChars_append head.tokens_ne_nil, block.tokens_setTrailing]
  rfl

section

variable {conformance source : String} {insertMissing : Bool} {a : Attribute}
  {old new : NominalDecl}

/-- The text up to the left brace is that of the head it is read as. -/
theorem bodyChars_of_frontReads {d : NominalDecl}
    (hsource : Node.source d = Node.trimmed (NominalDecl.mk new.head old.block))
    (hblock : (Node.tokens d.block).map Token.detached =
      (Node.tokens (Node.setTrailing .empty old.block)).map Token.detached) :
    bodyChars (Node.tokens new.head) = listChars (Node.tokens d.head) := by
  have hblock' : listChars (Node.tokens d.block) =
      listChars (Node.tokens (Node.setTrailing .empty old.block)) := by
    rw [← Token.listChars_map_detached, hblock, Token.listChars_map_detached]
  have hchars := congrArg String.toList hsource
  rw [Node.toList_source, d.tokens_eq, Token.listChars_append, hblock', trimmed_eq] at hchars
  exact (List.append_cancel_right hchars).symm

/-- Where the cases keep apart without the other members, the text of a replacement has them all. -/
theorem printsCases_of_casesApart (hparse : parseDecl source = .ok (.enum old))
    (ha : a ∈ old.head.preamble.attributes) (h : Proposes conformance insertMissing a old new)
    (hfront : FrontReads old new) (hapart : old.block.CasesApart) : PrintsCases old new := by
  obtain ⟨inner, e, hold⟩ := NominalDecl.enumRead_of_parseDecl hparse
  obtain ⟨-, -, display, -, -, -, -, hdisplay, hblock⟩ := steps_of_proposes ha h
  obtain ⟨d, hd, hsource, htokens⟩ := hfront
  obtain ⟨inner', e', hread'⟩ := NominalDecl.enumRead_of_parseDecl hd
  obtain ⟨w, ws, hws, hready, hsoft, hrun⟩ := ready_rebuilt hold hapart hdisplay
  obtain ⟨us, kept, hread, hsight, hlike⟩ := itemsRead_rebuilt hold hapart hdisplay
  have hhead := bodyChars_of_frontReads hsource htokens
  -- The head is read as that of `d`, whose left brace is the old one but for its place.
  have hleft : d.block.leftBrace.detached = old.block.leftBrace.detached := by
    rw [d.block.tokens_eq, old.block.tokens_setTrailing] at htokens
    exact (List.cons.inj htokens).1
  have hrun' : d.block.leftBrace.detached.runsInto w = false := by
    rw [hleft]
    exact hrun
  obtain ⟨d', hparse', hmembers⟩ := hread'.parseDecl_withBlock hws hready hsoft hrun' hsight hread
    ((kind_closingBrace old).trans hold.rightBrace)
  have htext : String.ofList (listChars (Node.tokens d.head ++ d.block.leftBrace ::
      (Member.listTokens (rebuiltMembers old.block.members (memberIndent old) display) ++
        [closingBrace old]))) = Node.trimmed new := by
    obtain ⟨head, block⟩ := new
    obtain rfl : block = _ := hblock
    rw [← String.toList_inj, String.toList_ofList, trimmed_eq, hhead, Token.listChars_append,
      MemberBlock.tokens_setTrailing, Token.listChars_cons_of_detached hleft]
    rfl
  refine ⟨d', htext ▸ hparse', ?_⟩
  rw [MemberBlock.cases_of_like_members (b := ⟨old.block.leftBrace, _, closingBrace old⟩) hmembers]
  refine MemberBlock.cases_of_like hlike ?_ rfl
  intro m hm
  simp only [addedMembers, ConformanceExtension.memberPair, List.mem_cons, List.not_mem_nil,
    or_false] at hm
  rcases hm with rfl | rfl <;> rfl

end

/-- Members between the cases, and cases that share a line. -/
def spreadEnum : String :=
  "@AppEnumGenFixIt\nenum A: Int \x7b // kinds\n  case a // note\n  var x: Int \x7b 1 \x7d\n" ++
    "  case b = 2; case c\n  func f() \x7b\x7d\n\x7d"

theorem printsCases_spreadEnum : ∃ old a new, parseDecl spreadEnum = .ok (.enum old) ∧
    a ∈ old.head.preamble.attributes ∧ Proposes "AppEnum" false a old new ∧ FrontReads old new ∧
    old.block.CasesApart ∧ PrintsCases old new := by
  have hrun : ((proposal? "AppEnum" false 0 spreadEnum).any fun p ↦
      decide p.1.block.CasesApart &&
        (parseEnum? (Node.trimmed (NominalDecl.mk p.2.2.head p.1.block))).any fun d ↦
          Node.source d == Node.trimmed (NominalDecl.mk p.2.2.head p.1.block) &&
            (Node.tokens d.block).map Token.detached ==
              (Node.tokens (Node.setTrailing .empty p.1.block)).map Token.detached) = true := by
    decide +kernel
  obtain ⟨⟨old, a, new⟩, hproposal, hrun⟩ := (Option.any_eq_true _ _).1 hrun
  obtain ⟨hparse, ha, hproposes⟩ := of_proposal? hproposal
  simp only [Bool.and_eq_true, decide_eq_true_eq, Option.any_eq_true, beq_iff_eq] at hrun
  obtain ⟨hapart, d, hd, hsource, htokens⟩ := hrun
  have hfront : FrontReads old new := ⟨d, parseEnum?_eq_some.1 hd, hsource, htokens⟩
  have hmem := List.mem_of_getElem? ha
  exact ⟨old, a, new, hparse, hmem, hproposes, hfront, hapart,
    printsCases_of_casesApart hparse hmem hproposes hfront hapart⟩

/-- A case on the line of a member that is left out before it. -/
def gluedEnum : String :=
  "@AppEnumGenFixIt\nenum A \x7b\n  case a\n  var x: Int; case b\n\x7d"

theorem not_printsCases_gluedEnum : ∃ old a new, parseDecl gluedEnum = .ok (.enum old) ∧
    a ∈ old.head.preamble.attributes ∧ a.name = name ∧ a.arguments = none ∧
    Proposes "AppEnum" false a old new ∧ ¬PrintsCases old new := by
  have hrun : ((proposal? "AppEnum" false 0 gluedEnum).any fun p ↦
      p.2.1.name == name && p.2.1.arguments.isNone &&
        (parseEnum? (Node.trimmed p.2.2)).all fun d ↦ d.block.cases != p.1.block.cases) = true := by
    decide +kernel
  obtain ⟨⟨old, a, new⟩, hproposal, hglued⟩ := (Option.any_eq_true _ _).1 hrun
  obtain ⟨hparse, ha, hproposes⟩ := of_proposal? hproposal
  simp only [Bool.and_eq_true, beq_iff_eq, Option.isNone_iff_eq_none] at hglued
  obtain ⟨⟨hname, harguments⟩, hglued⟩ := hglued
  refine ⟨old, a, new, hparse, List.mem_of_getElem? ha, hname, harguments, hproposes, ?_⟩
  rintro ⟨d, hd, hcases⟩
  simp [parseEnum?_eq_some.2 hd, hcases] at hglued

end EnumReplacement

end EnumForge
