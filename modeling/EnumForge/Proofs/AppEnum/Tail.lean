import EnumForge.Proofs.AppEnum.Pruning
import EnumForge.Proofs.Grammar.Stopping

/-!
# What stands behind the keyword of a replacement

A replacement changes the tokens between the keyword of an enum and its block where the conformance
comes in: behind the name, or behind the last type of the clause.  The old tokens tell what stands
there now, and how it is read: the new comma or colon takes no part in a token before it, and the
clause has one more type.
-/

namespace EnumForge

open Node (Like)
open Token (Ready Spelled InStep bodyChars listChars)
open Grammar (ItemsRead SameSight opening nominalHead)
open Lexeme (SameEdge)

/-! ### Marks behind a token -/

namespace Token

/-- A comma or a colon may come right behind a token. -/
theorem InStep.mark {z w mark : Token} {ws rest : List Token} (hz : Ready (z :: w :: ws))
    (htext : mark.text = "," ∨ mark.text = ":") (hleading : mark.leading = .empty)
    (hmark : Ready (mark :: rest)) :
    InStep (z :: w :: ws) (z.withTrailing .empty :: mark :: rest) := by
  obtain ⟨c, hc, hlist⟩ : ∃ c, (c = ',' ∨ c = ':') ∧
      listChars (mark :: rest) = c :: (mark.trailing.text.toList ++ listChars rest) := by
    rw [listChars_eq_bodyChars, bodyChars, hleading]
    rcases htext with htext | htext <;> rw [htext]
    · exact ⟨',', .inl rfl, rfl⟩
    · exact ⟨':', .inr rfl, rfl⟩
  have hplain : c ≠ '.' ∧ c ≠ '#' ∧ c ≠ '\x22' := by rcases hc with rfl | rfl <;> decide
  have hclass : Text.isWordPart c = false ∧ Text.isWordStart c = false ∧
      Lexeme.isNumberPart c = false ∧ Lexeme.isOperatorChar c = false := by
    rcases hc with rfl | rfl <;> decide
  have hcontinues : z.continues c = false := by
    unfold continues
    split <;> simp [hclass]
  have hcomment := hz.opensComment_eq
  obtain ⟨hcut, -⟩ := hz.spelled
  refine ⟨⟨?_, ⟨[], rfl, .stop hmark.stops⟩, hmark.2.1, hmark.1⟩, ?_⟩
  · show z.CutBefore (listChars (mark :: rest))
    rw [hlist]
    exact hcut.of_not_continues hplain hcontinues _
  · show SameEdge _ (z.text.toList ++ listChars (mark :: rest))
    obtain ⟨d, tail, hd, -⟩ := hcut
    refine .of_mild (by simp [hd]) hcomment ?_
    rw [hlist]
    rintro _ ⟨⟩
    rcases hc with rfl | rfl <;> decide

/-- A token may come behind a comma, with one more space before it. -/
theorem InStep.behindComma {c w n : Token} {ws ns : List Token} (hc : c.kind = .comma)
    (hspelled : Spelled (c :: w :: ws)) (hcomment : c.trailing.hasLineComment = false)
    (hn : Ready (n :: ns)) :
    InStep (c :: w :: ws) (c.withTrailing (c.trailing.push (.spaces 1)) :: n :: ns) := by
  obtain ⟨hcut, ⟨ps, hps, hgap⟩, -⟩ := hspelled
  have hpunctuation := hcut.isPunctuation (by simp [hc, punctuationKinds])
  have hnone : ∀ text, .lineComment text ∉ ps := by
    intro text hmem
    rw [hps, Trivia.hasLineComment_ofPieces, List.any_eq_false] at hcomment
    exact hcomment _ hmem rfl
  have hgap' := hgap.append_of_no_lineComment hnone (.blank (.inl rfl) (.stop hn.stops))
  refine ⟨⟨hpunctuation.cutBefore _, ⟨_, ?_, hgap'⟩, hn.2.1, hn.1⟩, ?_⟩
  · show c.trailing.push (.spaces 1) = _
    rw [hps, Trivia.ofPieces_concat]
  · rw [bodyChars, bodyChars]
    exact hpunctuation.sameEdge (by simp [hc]) _ _

end Token

/-! ### The conformance -/

/-- The tokens behind the keyword. -/
def NominalHead.tail (h : NominalHead) : List Token :=
  h.name :: (Node.tokens h.generics ++ Node.tokens h.inheritance ++ Node.tokens h.whereClause)

theorem NominalHead.tokens_eq (h : NominalHead) :
    Node.tokens h = Node.tokens h.preamble ++ h.keyword :: h.tail := rfl

/-- The tail of an enum is read behind its keyword. -/
theorem Grammar.nominalHead_of_opening {head : NominalHead} {rest : List Token}
    (h : opening (Node.tokens head ++ rest) = .ok (.group (.enum head), rest)) :
    nominalHead "an enum name" head.preamble head.keyword (head.tail ++ rest) =
      .ok (head, rest) := by
  obtain ⟨ts₁, ts₂, has, hms, -, hread⟩ := opening_enum_iff.1 h
  have htokens : Node.tokens head ++ rest = Node.tokens head.preamble.attributes ++
      (Node.tokens head.preamble.modifiers ++ head.keyword :: (head.tail ++ rest)) := by
    rw [head.tokens_eq]
    simp [Node.tokens]
  have hfront := reads_attributes _ _ _ has
  rw [htokens, ← reads_modifiers _ _ _ hms] at hfront
  obtain rfl := (List.cons.inj (List.append_cancel_left (List.append_cancel_left hfront))).2
  exact hread

/-- A type ends before the conditions and before the opening brace. -/
theorem Grammar.endsType_of_whereClause {ts inner : List Token} {conditions : Option (List Token)}
    {left : Token} (h : whereClause ts = (conditions, left :: inner))
    (hleft : left.kind = .leftBrace) : ∃ w ws, Node.tokens conditions ++ [left] = w :: ws ∧
      endsType w = true ∧ w.kind ≠ .comma := by
  unfold whereClause at h
  split at h
  · simp at h
  next t ts =>
    split at h
    next hwhere =>
      obtain ⟨rfl, -⟩ := Prod.mk.inj h
      have hkind : t.kind = .keyword := by simp_all [Token.isKeyword]
      refine ⟨t, _, rfl, by simp [endsType, hkind, hwhere], by simp [hkind]⟩
    next =>
      obtain ⟨rfl, hts⟩ := Prod.mk.inj h
      exact ⟨left, [], rfl, by simp [endsType, hleft], by simp [hleft]⟩

namespace EnumReplacement

variable {conformance : String} {insertMissing : Bool}

/-- The conformance behind a mark, before other tokens. -/
theorem ready_entry {mark : Token} (hmark : mark = Token.colon ∨ mark = Token.comma)
    (hid : Text.isIdentifier conformance = true) {ws : List Token} (hws : Ready ws) :
    Ready (mark.spaced :: (Token.plain .identifier conformance).spaced :: ws) := by
  have hentry := (Token.made_identifier hid).spaced.cons_of_meets (fun _ ↦ .spaced rfl) hws
  have hmade : mark.Made := by
    rcases hmark with rfl | rfl
    · exact Token.made_of_isPunctuation Token.isPunctuation_colon rfl rfl
    · exact Token.made_of_isPunctuation Token.isPunctuation_comma rfl rfl
  exact hmade.spaced.cons_of_meets (fun _ ↦ .spaced rfl) hentry

/-- How the last type of a clause and the conformance behind it stand in the text. -/
structure EntersBehind (conformance : String) (last : InheritedType) (run : List Token)
    (mark : Token) : Prop where
  look : List.Forall₂ Token.SameLook (Node.tokens last.type) run
  kind : mark.kind = .comma
  chars : listChars (run ++ [mark, (Token.plain .identifier conformance).spaced]) =
    listChars (Node.tokens (withComma last) ++
      [((Token.plain .identifier conformance).withLeading (Trivia.spaces 1)).spaced])
  inStep {ts ws : List Token} {w : Token} (hready : Ready (ts ++ (Node.tokens last ++ w :: ws))) :
    InStep (ts ++ (Node.tokens last ++ w :: ws))
      (ts ++ (run ++ mark :: (Token.plain .identifier conformance).spaced :: w :: ws))

/-- Without a comma behind the last type, the type loses its trailing trivia and gets one. -/
theorem entersBehind_type {type : TypeRef} {xs : List Token} {z : Token}
    (hid : Text.isIdentifier conformance = true) (hz : Node.tokens type = xs ++ [z]) :
    EntersBehind conformance ⟨type, none⟩ (xs ++ [z.withTrailing .empty]) Token.comma.spaced where
  look := by
    rw [hz]
    exact List.rel_append (List.forall₂_same.2 fun v _ ↦ .refl v) (.cons ⟨rfl, rfl, rfl⟩ .nil)
  kind := rfl
  chars := by
    have hwith : Node.tokens (withComma ⟨type, none⟩) =
        xs ++ [z.withTrailing .empty, Token.comma] := by
      have hlist : Node.tokens (withComma ⟨type, none⟩) =
          Node.tokens (Node.setTrailing .empty type) ++ [Token.comma] := rfl
      rw [hlist, type.hasShape.tokens_setTrailing_concat .empty hz, List.append_assoc]
      rfl
    have htext : listChars [Token.comma.spaced, (Token.plain .identifier conformance).spaced] =
        listChars [Token.comma,
          ((Token.plain .identifier conformance).withLeading (Trivia.spaces 1)).spaced] := by
      simp [Token.spaced, Token.withTrailing, Token.withLeading, Token.comma, Token.plain]
    have hassoc (entry : Token) : xs ++ [z.withTrailing .empty, Token.comma] ++ [entry] =
        xs ++ [z.withTrailing .empty] ++ [Token.comma, entry] := by simp
    rw [hwith, hassoc, Token.listChars_append, htext, ← Token.listChars_append]
  inStep {ts ws w} hready := by
    have hlast : Node.tokens (InheritedType.mk type none) = xs ++ [z] := by
      rw [← hz]
      exact List.append_nil _
    rw [hlast, List.append_assoc, ← List.append_assoc ts] at hready ⊢
    have hafter := hready.of_append
    have hentry := ready_entry (.inr rfl) hid (.of_spelled hafter.spelled)
    have hstep := Token.InStep.mark hafter (.inl rfl) rfl hentry
    rw [List.append_assoc xs, ← List.append_assoc ts]
    exact hstep.append rfl hready.spelled

/-- A comma behind the last type stays, with a blank behind it. -/
theorem entersBehind_comma {type : TypeRef} {c : Token} (hid : Text.isIdentifier conformance = true)
    (hkind : c.kind = .comma) (hcomment : c.trailing.hasLineComment = false) :
    EntersBehind conformance ⟨type, some c⟩ (Node.tokens type)
      (c.withTrailing (c.trailing.push (.spaces 1))) where
  look := List.forall₂_same.2 fun v _ ↦ .refl v
  kind := hkind
  chars := by
    have hlist : Node.tokens (withComma ⟨type, some c⟩) = Node.tokens type ++ [c] := rfl
    have htext : listChars [c.withTrailing (c.trailing.push (.spaces 1)),
        (Token.plain .identifier conformance).spaced] = listChars [c,
          ((Token.plain .identifier conformance).withLeading (Trivia.spaces 1)).spaced] := by
      simp [Token.spaced, Token.withTrailing, Token.withLeading, Token.plain, Trivia.spaces]
    rw [hlist, List.append_assoc, Token.listChars_append, Token.listChars_append, htext]
    rfl
  inStep {ts ws w} hready := by
    have hlast : Node.tokens (InheritedType.mk type (some c)) = Node.tokens type ++ [c] := rfl
    rw [hlast, List.append_assoc, ← List.append_assoc ts] at hready ⊢
    have hafter := hready.of_append
    have hentry := (Token.made_identifier hid).spaced.cons_of_meets (fun _ ↦ .spaced rfl)
      (.of_spelled hafter.spelled)
    have hstep := Token.InStep.behindComma hkind hafter.spelled hcomment hentry
    rw [← List.append_assoc ts]
    exact hstep.append rfl hready.spelled

theorem exists_entersBehind {last : InheritedType} (hid : Text.isIdentifier conformance = true)
    (hcomma : ∀ c ∈ last.comma, c.kind = .comma ∧ c.trailing.hasLineComment = false)
    (htype : Node.tokens last.type ≠ []) :
    ∃ run mark, EntersBehind conformance last run mark := by
  obtain ⟨type, comma⟩ := last
  cases comma with
  | none =>
    obtain ⟨xs, z, hz⟩ := (List.eq_nil_or_concat' (Node.tokens type)).resolve_left htype
    exact ⟨_, _, entersBehind_type hid hz⟩
  | some c =>
    obtain ⟨hkind, hcomment⟩ := hcomma c rfl
    exact ⟨_, _, entersBehind_comma hid hkind hcomment⟩

/-- The conformance is put behind the last type of a clause with commas between its types. -/
theorem tokens_types_addConformance {colon name : Token} {init : List InheritedType}
    {last : InheritedType} (hcommas : ∀ i ∈ init, i.comma.isSome = true) :
    Node.tokens (addConformance ⟨colon, init ++ [last]⟩ name).types =
      Node.tokens init ++ (Node.tokens (withComma last) ++
        [(name.withLeading (Trivia.spaces 1)).spaced]) := by
  have hinit : init.map withComma = init :=
    (List.map_congr_left fun i hi ↦ if_pos (hcommas i hi)).trans (List.map_id init)
  have htypes : (addConformance ⟨colon, init ++ [last]⟩ name).types = init ++ [withComma last] ++
      [⟨.identifier (name.withLeading (Trivia.spaces 1)).spaced, none⟩] := by
    simp [addConformance, hinit]
  rw [htypes]
  simp [Node.tokens, TypeRef.tokens]

/-- The tokens `ts` come to stand behind the keyword of `h`, with the text that stands there in
`h'`, and are read before the block. -/
structure TailReads (h h' : NominalHead) (left : Token) (inner bs ts : List Token) : Prop where
  starts : ∃ n ns, ts = n :: ns ∧ n.bare = h.name.bare ∧ n.leading = h.name.leading
  inStep : InStep (h.tail ++ left :: bs) (ts ++ left :: bs)
  chars : listChars ts = listChars h'.tail
  reads (p : Preamble) (keyword : Token) : ∃ head,
    nominalHead "an enum name" p keyword (ts ++ left :: inner) = .ok (head, left :: inner)

section

variable {h h' : NominalHead} {left : Token} {inner bs : List Token}
  (hread : nominalHead "an enum name" h.preamble h.keyword (h.tail ++ left :: inner) =
    .ok (h, left :: inner))
  (hleft : left.kind = .leftBrace) (hready : Ready (h.tail ++ left :: bs))
include hread

theorem TailReads.refl (hready : Ready (h.tail ++ left :: bs)) :
    TailReads h h left inner bs h.tail :=
  ⟨⟨_, _, rfl, rfl, rfl⟩, .refl hready.spelled, rfl,
    fun _ _ ↦ ⟨_, Grammar.nominalHead_withFront hread⟩⟩

/-- What the parts of the head were read from. -/
theorem reads_tail : h.name.kind = .identifier ∧ ∃ ts₂ ts₃,
    ts₂ = Node.tokens h.inheritance ++ ts₃ ∧ ts₃ = Node.tokens h.whereClause ++ left :: inner ∧
    Grammar.generics (Node.tokens h.generics ++ ts₂) = .ok (h.generics, ts₂) ∧
    Grammar.inheritance ts₂ = .ok (h.inheritance, ts₃) ∧
    Grammar.whereClause ts₃ = (h.whereClause, left :: inner) := by
  obtain ⟨-, ts₁, ts₂, ts₃, hname, hgenerics, hclause, hwhere⟩ :=
    Grammar.nominalHead_eq_ok.1 hread
  have hts₃ := Grammar.whereClause_append ts₃
  rw [hwhere] at hts₃
  rw [← Grammar.reads_generics _ _ _ hgenerics] at hgenerics
  exact ⟨Grammar.kind_of_expect hname, ts₂, ts₃, (Grammar.reads_inheritance _ _ _ hclause).symm,
    hts₃.symm, hgenerics, hclause, hwhere⟩

/-- The head is read with another clause. -/
theorem nominalHead_of_clause {name colon : Token} {group : Option (List Token)} {xs : List Token}
    {clause : Option InheritanceClause} (hname : name.bare = h.name.bare)
    (hgroup : Like h.generics group) (hcolon : colon.kind = .colon)
    (hclause : Grammar.inheritance (colon :: (xs ++ (Node.tokens h.whereClause ++ left :: inner))) =
      .ok (clause, Node.tokens h.whereClause ++ left :: inner)) (p : Preamble) (keyword : Token) :
    nominalHead "an enum name" p keyword (name :: (Node.tokens group ++
      colon :: (xs ++ (Node.tokens h.whereClause ++ left :: inner)))) =
        .ok (⟨p, keyword, name, group, clause, h.whereClause⟩, left :: inner) := by
  obtain ⟨hkind, ts₂, ts₃, -, rfl, hgenerics, -, hwhere⟩ := reads_tail hread
  have hkind' : name.kind = .identifier := (congrArg Token.kind hname).trans hkind
  refine Grammar.nominalHead_eq_ok.2 ⟨⟨rfl, rfl⟩, _, _, _, ?_,
    Grammar.generics_append hgenerics hgroup (by simp [hcolon]) _, hclause, hwhere⟩
  rw [Grammar.expect, if_pos hkind']

include hleft

/-- A type ends behind the clause. -/
theorem exists_after_clause : ∃ w ws, Grammar.endsType w = true ∧ w.kind ≠ .comma ∧
    ∀ xs, Node.tokens h.whereClause ++ left :: xs = w :: (ws ++ xs) := by
  obtain ⟨-, ts₂, ts₃, -, rfl, -, -, hwhere⟩ := reads_tail hread
  obtain ⟨w, ws, hw, hends, hne⟩ := Grammar.endsType_of_whereClause hwhere hleft
  refine ⟨w, ws, hends, hne, fun xs ↦ ?_⟩
  rw [List.append_cons, hw, List.cons_append]

include hready

theorem tailReads_inserted (hid : Text.isIdentifier conformance = true)
    (hnone : h.inheritance = none) (hsame : SameHead h h')
    (hnew : h' = { h.modifyNameEnd (·.withTrailing .empty) with
      inheritance := some (ConformanceExtension.soleConformance
        (.plain .identifier conformance)) }) : TailReads h h' left inner bs h'.tail := by
  obtain ⟨w, ws, hends, hne, hafter⟩ := exists_after_clause hread hleft
  have hleading : h'.name.leading = h.name.leading := by
    rw [hnew]
    unfold NominalHead.modifyNameEnd
    split <;> rfl
  obtain ⟨ts, hold, htokens⟩ := tokens_modifyNameEnd h (·.withTrailing .empty)
  -- Both tails are the same but for what stands between the end of the name and `w`.
  have htail (xs : List Token) : h.tail ++ left :: xs = ts ++ h.nameEnd :: w :: (ws ++ xs) := by
    rw [← hafter, List.append_cons ts, ← hold]
    simp [NominalHead.tail, hnone, Node.tokens]
  have hclause : Node.tokens h'.inheritance =
      [Token.colon.spaced, (Token.plain .identifier conformance).spaced] := by
    rw [hnew]
    rfl
  have htail' (xs : List Token) : h'.tail ++ left :: xs = h'.name :: (Node.tokens h'.generics ++
      Token.colon.spaced :: ([(Token.plain .identifier conformance).spaced] ++
        (Node.tokens h.whereClause ++ left :: xs))) := by
    simp [NominalHead.tail, hclause, hsame.whereClause]
  refine ⟨⟨_, _, rfl, hsame.name, hleading⟩, ?_, rfl, fun p keyword ↦ ?_⟩
  · have hsplit : h'.tail ++ left :: bs = ts ++ h.nameEnd.withTrailing .empty ::
        Token.colon.spaced :: (Token.plain .identifier conformance).spaced :: w :: (ws ++ bs) := by
      rw [htail', ← hafter, List.append_cons ts, ← htokens, hnew]
      simp
    rw [htail] at hready ⊢
    rw [hsplit]
    have hrest := hready.of_append
    have hentry := ready_entry (.inl rfl) hid (.of_spelled hrest.spelled)
    exact (Token.InStep.mark hrest (.inr rfl) rfl hentry).append rfl hready.spelled
  · have hsole : Grammar.inheritance (Token.colon.spaced ::
        ([(Token.plain .identifier conformance).spaced] ++
          (Node.tokens h.whereClause ++ left :: inner))) =
            .ok (some ⟨Token.colon.spaced,
              [⟨.identifier (Token.plain .identifier conformance).spaced, none⟩]⟩,
              Node.tokens h.whereClause ++ left :: inner) := by
      rw [hafter]
      exact bind_eq_ok.2 ⟨_, Grammar.inheritedTypes_name rfl hends hne (ws ++ inner), rfl⟩
    rw [htail']
    exact ⟨_, nominalHead_of_clause hread hsame.name hsame.generics rfl hsole p keyword⟩

theorem exists_tailReads_added (hid : Text.isIdentifier conformance = true)
    {clause : InheritanceClause} (hclause : h.inheritance = some clause)
    (hcomma : ∀ i ∈ clause.types.getLast?, ∀ c ∈ i.comma, c.trailing.hasLineComment = false) :
    ∃ ts, TailReads h { h with
      inheritance := some (addConformance clause (.plain .identifier conformance)) }
        left inner bs ts := by
  obtain ⟨-, ts₂, ts₃, hts₂, hts₃, -, hinheritance, -⟩ := reads_tail hread
  obtain ⟨w, ws, hends, hne, hafter⟩ := exists_after_clause hread hleft
  obtain ⟨colon, types⟩ := clause
  have htokens : Node.tokens h.inheritance = colon :: Node.tokens types := by
    rw [hclause]
    rfl
  rw [hclause, hts₂, htokens] at hinheritance
  obtain ⟨hcolon, -, htypes⟩ := Grammar.inheritance_eq_some.1 hinheritance
  obtain ⟨init, last, rfl, hlist⟩ := Grammar.exists_listRead htypes
  have hlast : ∀ c ∈ last.comma, c.kind = .comma ∧ c.trailing.hasLineComment = false :=
    fun c hc ↦ ⟨hlist.comma c hc, hcomma last (by simp) c hc⟩
  obtain ⟨run, mark, hbehind⟩ := exists_entersBehind hid hlast hlist.type
  have hgroup (is : List InheritedType) (i : InheritedType) :
      Node.tokens (is ++ [i]) = Node.tokens is ++ Node.tokens i := by
    simp [Node.tokens]
  -- Both tails are the same up to the last type, and again from `w` on.
  let front := h.name :: (Node.tokens h.generics ++ colon :: Node.tokens init)
  let entry := (Token.plain .identifier conformance).spaced
  have htail (xs : List Token) :
      h.tail ++ left :: xs = front ++ (Node.tokens last ++ w :: (ws ++ xs)) := by
    rw [← hafter]
    simp [NominalHead.tail, htokens, hgroup, front]
  have htail' (xs : List Token) :
      front ++ (run ++ [mark, entry] ++ Node.tokens h.whereClause) ++ left :: xs =
        front ++ (run ++ mark :: entry :: w :: (ws ++ xs)) := by
    rw [← hafter]
    simp
  refine ⟨front ++ (run ++ [mark, entry] ++ Node.tokens h.whereClause), ⟨_, _, rfl, rfl, rfl⟩,
    ?_, ?_, fun p keyword ↦ ?_⟩
  · rw [htail] at hready ⊢
    rw [htail']
    exact hbehind.inStep hready
  · let added := addConformance ⟨colon, init ++ [last]⟩ (.plain .identifier conformance)
    have hadded : Node.tokens added.types = Node.tokens init ++ (Node.tokens (withComma last) ++
        [((Token.plain .identifier conformance).withLeading (Trivia.spaces 1)).spaced]) :=
      tokens_types_addConformance hlist.commas
    have hnew : NominalHead.tail { h with inheritance := some added } =
        front ++ (Node.tokens (withComma last) ++
          [((Token.plain .identifier conformance).withLeading (Trivia.spaces 1)).spaced] ++
            Node.tokens h.whereClause) := by
      have hsome : Node.tokens (some added) = colon :: Node.tokens added.types := rfl
      simp only [NominalHead.tail, hsome, hadded, front]
      simp
    rw [hnew, Token.listChars_append, Token.listChars_append, hbehind.chars,
      ← Token.listChars_append, ← Token.listChars_append]
  · obtain ⟨is, hread'⟩ := hlist.concat run mark entry w (ws ++ inner) hbehind.look hbehind.kind
      rfl hends hne
    have hmore : Grammar.inheritance (colon :: (Node.tokens init ++ run ++ [mark, entry] ++
        (Node.tokens h.whereClause ++ left :: inner))) =
          .ok (some ⟨colon, is⟩, Node.tokens h.whereClause ++ left :: inner) := by
      rw [hafter]
      refine Grammar.inheritance_eq_some.2 ⟨hcolon, rfl, ?_⟩
      simpa using hread'
    have hhead := nominalHead_of_clause hread rfl rfl hcolon hmore p keyword
    exact ⟨⟨p, keyword, h.name, h.generics, some ⟨colon, is⟩, h.whereClause⟩, by
      simpa [front] using hhead⟩

/-- Behind the keyword of a replacement the conformance is read with the rest of the head. -/
theorem exists_tailReads (hconforms : Conforms conformance insertMissing h h')
    (hcomma : ∀ clause ∈ h.inheritance, ∀ i ∈ clause.types.getLast?,
      ∀ c ∈ i.comma, c.trailing.hasLineComment = false) :
    ∃ ts, TailReads h h' left inner bs ts := by
  cases hconforms with
  | listed | absent => exact ⟨_, .refl hread hready⟩
  | added hclause _ hid =>
    exact exists_tailReads_added hread hleft hready hid hclause (hcomma _ hclause)
  | inserted hclause _ hid =>
    exact ⟨_, tailReads_inserted hread hleft hready hid hclause (sameHead_modifyNameEnd h _ _) rfl⟩

end

end EnumReplacement

end EnumForge
