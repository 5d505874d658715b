import EnumForge.Proofs.AppEnum.Tail
import EnumForge.Proofs.Token.Commenting
import EnumForge.Proofs.Trivia.Canonical

/-!
# The front of a replacement

The source tells whether the front of a replacement is read: the attribute has to stand on one line
that ends before the next token, and no line comment may stand behind a comma that the conformance
is put behind.
-/

namespace EnumForge

open Node (Like)
open Token (Ready Spelled InStep bodyChars listChars)
open Grammar (ItemsRead SameSight AtBlock opening nominalHead)

/-! ### The block at the end of a text -/

theorem Trivia.exists_text_trimmed (t : Trivia) :
    ∃ rest, t.text.toList = t.trimmed.text.toList ++ rest := by
  obtain ⟨rest, hrest⟩ := t.trimmed_isPrefix
  exact ⟨(String.join (rest.map TriviaPiece.text)).toList, by simp [text, ← hrest]⟩

theorem Node.length_tokens_of_like {α : Type} [Node α] {a b : α} (ha : HasShape a)
    (hb : HasShape b) (h : Like a b) : (tokens a).length = (tokens b).length := by
  have htokens := congrArg (fun c ↦ (tokens c).length) h
  simpa [ha.tokens_mapTokens, hb.tokens_mapTokens] using htokens

theorem Token.bodyChars_concat (t : Token) (ts : List Token) (z : Token) :
    bodyChars (t :: (ts ++ [z])) =
      bodyChars (t :: (ts ++ [z.withTrailing .empty])) ++ z.trailing.text.toList := by
  simp [bodyChars, withTrailing]

/-- A token may move to a line of its own. -/
theorem Token.Ready.onOwnLine {n : Token} {ns : List Token} (h : Ready (n :: ns))
    (indent : String) : Ready (n.onOwnLine indent :: ns) := by
  unfold Token.onOwnLine
  split
  · exact h
  · obtain ⟨hspelled, ⟨qs, -, hgap⟩, -⟩ := h
    obtain ⟨ps, hps, hfresh, hhead⟩ := Trivia.fresh_newlinesIndent 0 indent
    refine ⟨(spelled_withLeading _).2 hspelled, ⟨ps, hps, hfresh _ hgap.stops_after⟩, ?_⟩
    show ∀ c ∈ (Trivia.newlinesIndent 1 indent).text.toList.head?, c = '\n' ∨ c = '\r'
    rwa [hps, Trivia.toList_text_ofPieces]

theorem Token.withLeading_onOwnLine (indent : String) (t : Token) (leading : Trivia) :
    (t.onOwnLine indent).withLeading leading = t.withLeading leading := by
  unfold onOwnLine
  split <;> rfl

theorem Token.endsLine_onOwnLine (indent : String) {t : Token}
    (h : t.startsLine = true → Trivia.endsLine t.leading.text.toList = true) :
    Trivia.endsLine (t.onOwnLine indent).leading.text.toList = true := by
  unfold onOwnLine
  split
  next hline => exact h hline
  next => exact Trivia.endsLine_newlinesIndent 0 indent

theorem Token.IsPunctuation.text_of_atSign {t : Token} (h : t.IsPunctuation)
    (hkind : t.kind = .atSign) : t.text = "@" := by
  obtain ⟨c, htext, hc⟩ := h
  rw [hkind] at hc
  have hat : c = '@' := by fun_cases Lexeme.punctuation? c <;> simp_all [Lexeme.punctuation?]
  rw [← String.toList_inj, htext, hat]
  rfl

theorem Attribute.Standing.text_atSign {a : Attribute} (h : a.Standing) {ts : List Token}
    (hspelled : Spelled ts) (hmem : a.atSign ∈ ts) : a.atSign.text = "@" := by
  have hpunctuation := Token.isPunctuation_of_mem hspelled hmem
    (by simp [h.atSign, Token.punctuationKinds])
  exact hpunctuation.text_of_atSign h.atSign

/-- A closing brace may end a text. -/
theorem Token.InStep.endOfText {z w : Token} {ws : List Token} (hspelled : Spelled (z :: w :: ws))
    (hz : z.kind = .rightBrace) :
    InStep (z :: w :: ws) [z.withTrailing .empty, Token.endOfText] := by
  have hpunctuation := hspelled.1.isPunctuation (by simp [hz, punctuationKinds])
  refine ⟨⟨hpunctuation.cutBefore _, ⟨[], rfl, .stop rfl⟩, ⟨[], rfl, .stop rfl⟩, rfl, rfl, rfl⟩, ?_⟩
  rw [bodyChars, bodyChars]
  exact hpunctuation.sameEdge (by simp [hz]) _ _

namespace EnumReplacement

/-- The tokens of a block at the end of a text. -/
abbrev lastBlock (d : NominalDecl) : List Token := Node.tokens (Node.setTrailing .empty d.block)

section

variable {old new : NominalDecl} {inner : List Token} {e : Token} (hold : old.EnumRead inner e)
  (hmembers : ItemsRead inner old.block.members [old.block.rightBrace])
include hold hmembers

theorem spelled_lastBlock :
    Spelled (Node.tokens old.head ++ (lastBlock old ++ [Token.endOfText])) := by
  have hspelled := hold.spelled
  rw [← hmembers.tokens_append, List.append_assoc, ← List.cons_append, ← List.append_assoc]
    at hspelled
  have hend := Token.spelled_of_append hspelled (by simp)
  have hstep := (Token.InStep.endOfText hend hold.rightBrace).append rfl hspelled
  rw [lastBlock, old.block.tokens_setTrailing]
  simpa using hstep.spelled

/-- What is read as an enum before the old block is the front of a replacement. -/
theorem frontReads_of_opening {t u : Token} {ts us F : List Token} {head : NominalHead}
    (hspelled : Spelled (t :: (ts ++ [Token.endOfText])))
    (hstart : TokenStream.StartsFile t.leading (bodyChars (t :: (ts ++ [Token.endOfText]))))
    (htext : listChars (t :: ts) = bodyChars (Node.tokens new.head) ++ listChars (lastBlock old))
    (hblock : t :: ts = F ++ lastBlock old) (hsight : SameSight (u :: us) (t :: ts))
    (hopen : opening (u :: us) = .ok (.group (.enum head), lastBlock old)) :
    FrontReads old new := by
  have hlast : lastBlock old = old.block.leftBrace ::
      (Member.listTokens old.block.members ++ [old.block.rightBrace.withTrailing .empty]) :=
    old.block.tokens_setTrailing .empty
  have hinner : SameSight inner
      (Member.listTokens old.block.members ++ [old.block.rightBrace.withTrailing .empty]) := by
    rw [← hmembers.tokens_append]
    exact .append_left _ (.cons ⟨rfl, rfl, rfl⟩ (.inr ⟨rfl, rfl⟩) .edge)
  obtain ⟨ms, last, hread, -, hsightlast⟩ := Grammar.alike_itemsRead hinner hmembers
  obtain ⟨right, rest, rfl, look, -, hrest⟩ := hsightlast.uncons (Nat.zero_le _)
  obtain rfl : rest = [] := (hrest.toEdge .nil).nil_iff.1 rfl
  have hend : Grammar.atBlockEnd (u :: us) = false := by
    have hcloses := Grammar.closes_of_startsItem (Grammar.startsItem_of_opening hopen)
    have hkind : u.kind ≠ .rightBrace := fun hkind ↦ by simp [hkind, TokenKind.closes] at hcloses
    simpa [Grammar.atBlockEnd] using hkind
  rw [hlast] at hopen
  have hitems := Grammar.itemsRead_enum hend hopen hold.leftBrace hread
    (look.kind.trans hold.rightBrace)
  obtain ⟨d, hparse, hlike, hdetached⟩ := parseDecl_of_spelled hspelled hstart hsight hitems
  obtain ⟨d, rfl, hmslike⟩ := exists_enum_of_like hlike
  have hsource : String.ofList (listChars (t :: ts)) =
      Node.trimmed (NominalDecl.mk new.head old.block) := by
    rw [← String.toList_inj, String.toList_ofList, trimmed_eq, htext]
  refine ⟨d, hsource ▸ hparse, ?_, ?_⟩
  · have htokens : Node.tokens (Decl.enum d) = Node.tokens d := rfl
    rw [← hsource, ← String.toList_inj, String.toList_ofList, Node.toList_source, ← htokens,
      ← Token.listChars_map_detached, hdetached, Token.listChars_map_detached]
  · -- Both lists end with the block, and the block has as many tokens as it was read from.
    have hlength : (Node.tokens d.block).length = (lastBlock old).length := by
      have hms := Node.length_tokens_of_like (.list fun m _ ↦ m.hasShape)
        (.list fun m _ ↦ m.hasShape) hmslike
      rw [Member.tokens_list, Member.tokens_list] at hms
      have hinner := congrArg List.length hread.tokens_append
      rw [d.block.tokens_eq, hlast]
      simp_all
    have htokens : Node.tokens (Decl.enum d) = Node.tokens d.head ++ Node.tokens d.block :=
      d.tokens_eq
    rw [hblock, htokens, List.map_append, List.map_append] at hdetached
    exact (List.append_inj' hdetached (by simpa using hlength)).2

end

/-! ### The attribute as a comment -/

/-- The attribute as a comment has its own text behind two slashes, but for blanks at the end. -/
theorem exists_comment {a : Attribute} (hat : a.atSign.text = "@")
    (hline : ∀ c ∈ bodyChars (Node.tokens a), c ≠ '\n' ∧ c ≠ '\r') : ∃ t ts body,
    Node.tokens (commentOut a) = t :: ts ∧ t.leading = a.atSign.leading ∧
      bodyChars (t :: ts) = '/' :: '/' :: body ∧ ∀ c ∈ body, c ≠ '\n' ∧ c ≠ '\r' := by
  obtain ⟨ws, z, hz⟩ :=
    (List.eq_nil_or_concat' (a.nameToken :: Node.tokens a.arguments)).resolve_left (by simp)
  have htokens : Node.tokens a = a.atSign :: (ws ++ [z]) := congrArg (a.atSign :: ·) hz
  let slashed : Attribute := { a with atSign.text := "//@" }
  have hslashed : Node.tokens slashed = (slashed.atSign :: ws) ++ [z] :=
    congrArg (slashed.atSign :: ·) hz
  have htrailing : Node.trailing slashed = z.trailing := by
    rw [Node.trailing, hslashed, List.getLast?_concat]
    rfl
  have hcomment : commentOut a = Node.setTrailing z.trailing.trimmed slashed := by
    rw [← htrailing]
    rfl
  obtain ⟨rest, htrimmed⟩ := z.trailing.exists_text_trimmed
  have hbody : bodyChars (Node.tokens a) = '@' :: (a.atSign.trailing.text.toList ++
      listChars (ws ++ [z.withTrailing z.trailing.trimmed])) ++ rest := by
    rw [htokens, bodyChars, hat]
    simp [Token.withTrailing, htrimmed]
  rw [hbody] at hline
  refine ⟨slashed.atSign, ws ++ [z.withTrailing z.trailing.trimmed], _, ?_, rfl, ?_,
    fun c hc ↦ hline c (List.mem_append_left _ hc)⟩
  · rw [hcomment]
    exact slashed.hasShape.tokens_setTrailing_concat _ hslashed
  · simp [bodyChars, slashed]

section

variable {old new : NominalDecl} {inner : List Token} {e : Token} (hold : old.EnumRead inner e)
  (hmembers : ItemsRead inner old.block.members [old.block.rightBrace])
  {m : Token} {ms : List Token} {body : List Char}
  (hready : Ready (m :: (ms ++ lastBlock old ++ [Token.endOfText])))
  (hline : Trivia.endsLine m.leading.text.toList = true)
  (hbody : ∀ c ∈ body, c ≠ '\n' ∧ c ≠ '\r')
include hold hmembers hready hline hbody

/-- The comment is the first line of the text. -/
theorem frontReads_first
    (hopen : ∀ leading, ∃ head, opening (m.withLeading leading :: (ms ++ lastBlock old)) =
      .ok (.group (.enum head), lastBlock old))
    (htext : bodyChars (Node.tokens new.head) ++ listChars (lastBlock old) =
      '/' :: '/' :: body ++ listChars (m :: (ms ++ lastBlock old))) : FrontReads old new := by
  obtain ⟨leading, hstart, hchars⟩ := Token.exists_startsFile_comment hready hline hbody
  obtain ⟨head, hopen⟩ := hopen leading
  have hspelled := (Token.spelled_withLeading leading).2 hready.spelled
  refine frontReads_of_opening (F := m.withLeading leading :: ms) hold hmembers hspelled hstart ?_
    rfl (.of_map_detached rfl) hopen
  rw [htext, Token.listChars_eq_bodyChars, Token.listChars_eq_bodyChars m]
  show leading.text.toList ++ bodyChars (m :: _) = _
  rw [hchars, List.append_assoc]

/-- The comment stands behind other attributes. -/
theorem frontReads_behind {f p x : Token} {vs xs : List Token} (hf : f.kind = .atSign)
    (hp : p.kind = .identifier ∨ p.kind = .keyword ∨ p.kind.closes = true)
    (hspelled : Spelled (f :: (vs ++ p :: x :: xs))) (hx : bodyChars (x :: xs) ≠ [])
    (hitem : m.startsItem = true)
    (hopen : ∀ leading, ∃ head,
      opening (f :: (vs ++ p :: m.withLeading leading :: (ms ++ lastBlock old))) =
        .ok (.group (.enum head), lastBlock old))
    (htext : bodyChars (Node.tokens new.head) ++ listChars (lastBlock old) =
      bodyChars (f :: (vs ++ [p])) ++ (x.leading.text.toList ++
        ('/' :: '/' :: body ++ listChars (m :: (ms ++ lastBlock old))))) : FrontReads old new := by
  have hlast : Spelled (p :: x :: xs) := by
    rw [← List.cons_append] at hspelled
    exact Token.spelled_of_append hspelled (by simp)
  obtain ⟨trailing, leading, hstep, hchars⟩ :=
    Token.exists_inStep_comment hready hline hbody hp hlast hx
  have hwhole : InStep ((f :: vs) ++ p :: x :: xs) ((f :: vs) ++ p.withTrailing trailing ::
      m.withLeading leading :: (ms ++ lastBlock old ++ [Token.endOfText])) :=
    hstep.append rfl hspelled
  obtain ⟨head, hopen⟩ := hopen leading
  obtain ⟨head, hopen⟩ := Grammar.opening_withLeading hopen .empty
  have hpunctuation := Token.isPunctuation_of_mem hspelled List.mem_cons_self
    (by simp [hf, Token.punctuationKinds])
  have hmade : ((f.withLeading .empty).withTrailing .empty).Made :=
    Token.made_of_isPunctuation hpunctuation rfl rfl
  have hback : Grammar.looksBack (m.withLeading leading :: (ms ++ lastBlock old)) = false :=
    Grammar.looksBack_of_startsItem (t := m.withLeading leading) hitem _
  have hblock : f.withLeading .empty ::
      (vs ++ p.withTrailing trailing :: m.withLeading leading :: (ms ++ lastBlock old)) =
        (f.withLeading .empty :: (vs ++ p.withTrailing trailing :: m.withLeading leading :: ms)) ++
          lastBlock old := by
    simp
  have hassoc : vs ++ p.withTrailing trailing :: m.withLeading leading ::
      (ms ++ lastBlock old) ++ [Token.endOfText] = vs ++ p.withTrailing trailing ::
        m.withLeading leading :: (ms ++ lastBlock old ++ [Token.endOfText]) := by
    simp
  refine frontReads_of_opening hold hmembers ?_ ?_ ?_ hblock ?_ hopen
  · rw [hassoc]
    exact (Token.spelled_withLeading .empty).2 hwhole.spelled
  · have hsoft := (hpunctuation.startsSoft hf).head?_ne
    exact ⟨[], .stop (hmade.stops _), .inl ⟨rfl, hsoft _⟩⟩
  · have hrun (trailing : Trivia) (us : List Token) :
        listChars (f.withLeading .empty :: (vs ++ p.withTrailing trailing :: us)) =
          bodyChars (f :: (vs ++ [p.withTrailing .empty])) ++
            (trailing.text.toList ++ listChars us) := by
      simp [bodyChars, Token.withTrailing, Token.withLeading]
    rw [htext, hrun, Token.bodyChars_concat f vs p, Token.listChars_eq_bodyChars,
      Token.listChars_eq_bodyChars m]
    show _ ++ (trailing.text.toList ++ (leading.text.toList ++ bodyChars (m :: _))) = _
    rw [← List.append_assoc trailing.text.toList, hchars]
    simp only [List.append_assoc, List.cons_append]
  · exact .append_left (f.withLeading .empty :: vs)
      (.cons ⟨rfl, rfl, rfl⟩ (.inr ⟨hback, hback⟩) (SameSight.of_map_detached rfl))

end

/-! ### The front -/

section

variable {old new : NominalDecl} {inner : List Token} {e : Token} {a : Attribute}
  {before after : List Attribute} {n : Token} {front ts : List Token}
  (hsplit : old.head.preamble.attributes = before ++ a :: after)
  (hfront : Node.tokens (after, old.head.preamble.modifiers, old.head.keyword) = n :: front)
include hsplit hfront

theorem tokens_head_eq : Node.tokens old.head =
    Node.tokens (before ++ [a]) ++ n :: (front ++ old.head.tail) := by
  have hpreamble : Node.tokens old.head.preamble ++ [old.head.keyword] =
      Node.tokens (before ++ [a]) ++
        Node.tokens (after, old.head.preamble.modifiers, old.head.keyword) := by
    simp [Node.tokens, hsplit]
  rw [old.head.tokens_eq, List.append_cons, hpreamble, hfront]
  simp

variable {h h' : NominalHead} {bs : List Token}
  (htail : TailReads h h' old.block.leftBrace inner bs ts) (hsame : h.tail = old.head.tail)
include htail hsame

/-- The front is read behind the comment, whatever leads it there. -/
theorem opening_front (hold : old.EnumRead inner e) :
    (∀ b ∈ before ++ [a], b.Standing) ∧ n.startsItem = true ∧ ∀ leading, ∃ head,
      opening (Node.tokens before ++ n.withLeading leading :: (front ++ ts ++ lastBlock old)) =
        .ok (.group (.enum head), lastBlock old) := by
  have hopen := hold.opens
  have hattributes : old.head.preamble.attributes = (before ++ [a]) ++ after := by simp [hsplit]
  obtain ⟨hstanding, t, rest, htokens, hafter⟩ := Grammar.opening_split hopen hattributes
  rw [tokens_head_eq hsplit hfront, List.append_assoc] at htokens
  obtain ⟨rfl, rfl⟩ := List.cons.inj (List.append_cancel_left htokens)
  refine ⟨hstanding, Grammar.startsItem_of_opening hafter, fun leading ↦ ?_⟩
  -- First the new tail before the old tokens of the block, then the front, then the new block.
  obtain ⟨name, names, hts, hbare, -⟩ := htail.starts
  obtain ⟨head, hread⟩ := htail.reads ⟨after, old.head.preamble.modifiers⟩ old.head.keyword
  have hrun : Node.tokens (Preamble.mk after old.head.preamble.modifiers) ++ [old.head.keyword] =
      n :: front := by
    rw [← hfront]
    simp [Node.tokens]
  have hnext : (ts ++ old.block.leftBrace :: inner).head?.map Token.bare =
      (old.head.tail ++ old.block.leftBrace :: inner).head?.map Token.bare := by
    rw [hts, ← hsame]
    simp [NominalHead.tail, hbare]
  have hbefore : ∀ b ∈ before, b.Standing := fun b hb ↦ hstanding b (List.mem_append_left _ hb)
  have hblock : AtBlock (old.block.leftBrace :: inner) (lastBlock old) := by
    rw [lastBlock, old.block.tokens_setTrailing]
    exact .brace (.refl _) hold.leftBrace
  have hbehind : opening (n :: front ++ (ts ++ old.block.leftBrace :: inner)) =
      .ok (.group (.enum head), old.block.leftBrace :: inner) :=
    Grammar.opening_tail (by simpa using hafter) hrun hnext hread
  obtain ⟨head, hled⟩ := Grammar.opening_withLeading hbehind leading
  obtain ⟨head, hwhole⟩ := Grammar.opening_append hbefore hled
  have hassoc (us : List Token) :
      Node.tokens before ++ n.withLeading leading :: (front ++ (ts ++ us)) =
        (Node.tokens before ++ n.withLeading leading :: (front ++ ts)) ++ us := by
    simp
  have hrest : front.append (ts ++ old.block.leftBrace :: inner) =
      front ++ (ts ++ old.block.leftBrace :: inner) := rfl
  rw [hrest, hassoc] at hwhole
  obtain ⟨head, hlast, -⟩ := Grammar.opening_enum hblock hwhole
  rw [← hassoc, ← List.append_assoc front] at hlast
  exact ⟨head, hlast⟩

end

/-- Nothing in the front of the enum gets in the way of a replacement: the attribute stands on one
line, which ends before the next token if that starts a line (and not at a carriage return alone),
and no line comment stands behind a comma that the conformance is put behind. -/
structure PlainFront (a : Attribute) (old : NominalDecl) : Prop where
  line : ∀ c ∈ bodyChars (Node.tokens a), c ≠ '\n' ∧ c ≠ '\r'
  next : ∀ t ∈ (Node.tokens old)[attributeEnd (old.head.preamble.attributes.idxOf a) old]?,
    t.startsLine = true → Trivia.endsLine t.leading.text.toList = true
  comma : ∀ clause ∈ old.head.inheritance, ∀ i ∈ clause.types.getLast?,
    ∀ c ∈ i.comma, c.trailing.hasLineComment = false

theorem plainFront_iff {a : Attribute} {old : NominalDecl} : PlainFront a old ↔
    ((bodyChars (Node.tokens a)).all fun c ↦ c != '\n' && c != '\r') = true ∧
    ((Node.tokens old)[attributeEnd (old.head.preamble.attributes.idxOf a) old]?.all fun t ↦
      !t.startsLine || Trivia.endsLine t.leading.text.toList) = true ∧
    (old.head.inheritance.all fun clause ↦ clause.types.getLast?.all fun i ↦
      i.comma.all fun c ↦ !c.trailing.hasLineComment) = true := by
  simp only [List.all_eq_true, Option.all_eq_true, Bool.and_eq_true, bne_iff_ne, Bool.or_eq_true,
    Bool.not_eq_true', ← Bool.not_eq_true, ← imp_iff_not_or]
  constructor
  · exact fun h ↦ ⟨h.line, h.next, by simpa using h.comma⟩
  · exact fun ⟨hline, hnext, hcomma⟩ ↦ ⟨hline, hnext, by simpa using hcomma⟩

instance (a : Attribute) (old : NominalDecl) : Decidable (PlainFront a old) :=
  decidable_of_iff' _ plainFront_iff

/-- The tokens of the new head, in the order of the text. -/
theorem tokens_newHead {h' : NominalHead} {a : Attribute} {old : NominalDecl}
    {before after : List Attribute} {n : Token} {front : List Token}
    (hfront : Node.tokens (after, old.head.preamble.modifiers, old.head.keyword) = n :: front)
    (hsame : SameHead (old.withFront (disabledFront before after a old)).head h') :
    Node.tokens h' = Node.tokens before ++ (Node.tokens (commentOut a) ++
      n.onOwnLine (Node.indentation a) :: (front ++ h'.tail)) := by
  have hmoved := tokens_moved a after old
  have htokens : Node.tokens after ++ (Node.tokens old.head.preamble.modifiers ++
      [old.head.keyword]) = n :: front := hfront
  rw [htokens, List.modify_zero_cons] at hmoved
  have hpreamble : Node.tokens h'.preamble ++ [h'.keyword] = Node.tokens before ++
      (Node.tokens (commentOut a) ++ n.onOwnLine (Node.indentation a) :: front) := by
    rw [hsame.preamble, hsame.keyword, ← hmoved]
    simp [disabledFront, frontOf, NominalDecl.withFront, Node.tokens]
  rw [h'.tokens_eq, List.append_cons, hpreamble]
  simp

theorem bodyChars_newHead {h' : NominalHead} {a : Attribute} {old : NominalDecl}
    {before after : List Attribute} {n : Token} {front : List Token}
    (hfront : Node.tokens (after, old.head.preamble.modifiers, old.head.keyword) = n :: front)
    (hsame : SameHead (old.withFront (disabledFront before after a old)).head h') :
    bodyChars (Node.tokens h') = bodyChars (Node.tokens before ++ Node.tokens (commentOut a)) ++
      listChars (n.onOwnLine (Node.indentation a) :: (front ++ h'.tail)) := by
  have hne : Node.tokens before ++ Node.tokens (commentOut a) ≠ [] := by
    simp [Node.tokens, commentOut]
  rw [tokens_newHead hfront hsame, ← List.append_assoc, Token.bodyChars_append hne]

/-- The new tail stands behind the old front, before the block at the end of the text. -/
theorem exists_spelled_tail {conformance : String} {insertMissing : Bool} {a : Attribute}
    {old new : NominalDecl} {inner : List Token} {e n : Token} {before after : List Attribute}
    {front : List Token} (hold : old.EnumRead inner e)
    (hmembers : ItemsRead inner old.block.members [old.block.rightBrace])
    (hsplit : old.head.preamble.attributes = before ++ a :: after)
    (hfront : Node.tokens (after, old.head.preamble.modifiers, old.head.keyword) = n :: front)
    (hconforms : Conforms conformance insertMissing
      (old.withFront (disabledFront before after a old)).head new.head)
    (hcomma : ∀ clause ∈ old.head.inheritance, ∀ i ∈ clause.types.getLast?,
      ∀ c ∈ i.comma, c.trailing.hasLineComment = false) : ∃ bs ts,
    TailReads (old.withFront (disabledFront before after a old)).head new.head old.block.leftBrace
        inner bs ts ∧
      Spelled (Node.tokens (before ++ [a]) ++
        n :: (front ++ ts ++ lastBlock old ++ [Token.endOfText])) := by
  have hlast : lastBlock old = old.block.leftBrace ::
      (Member.listTokens old.block.members ++ [old.block.rightBrace.withTrailing .empty]) :=
    old.block.tokens_setTrailing .empty
  have hspelled := spelled_lastBlock hold hmembers
  rw [tokens_head_eq hsplit hfront, hlast] at hspelled
  have hassoc (us : List Token) : Node.tokens (before ++ [a]) ++ n :: (front ++ us) =
      (Node.tokens (before ++ [a]) ++ n :: front) ++ us := by
    simp
  rw [hassoc, List.append_assoc, List.cons_append] at hspelled
  let h := (old.withFront (disabledFront before after a old)).head
  have hread : nominalHead "an enum name" h.preamble h.keyword
      (h.tail ++ old.block.leftBrace :: inner) = .ok (h, old.block.leftBrace :: inner) :=
    Grammar.nominalHead_withFront (Grammar.nominalHead_of_opening hold.opens)
  have hready := Token.ready_of_append hspelled (by simp) (by simp)
  obtain ⟨ts, htail⟩ := exists_tailReads hread hold.leftBrace hready hconforms hcomma
  refine ⟨_, ts, htail, ?_⟩
  obtain ⟨name, names, rfl, -, hleading⟩ := htail.starts
  have hstep := htail.inStep.append hleading hspelled
  rw [hlast]
  simpa using hstep.spelled

/-- Where nothing gets in the way, the new head is read before the old block. -/
theorem frontReads_of_plainFront {conformance source : String} {insertMissing : Bool}
    {a : Attribute} {old new : NominalDecl} {e : Token}
    (hparse : parseSource source = .ok ⟨[⟨.enum old, none⟩], e⟩)
    (ha : a ∈ old.head.preamble.attributes) (h : Proposes conformance insertMissing a old new)
    (hplain : PlainFront a old) : FrontReads old new := by
  obtain ⟨inner, hold, hmembers⟩ := NominalDecl.enumRead_of_parseSource hparse rfl
  obtain ⟨before, after, display, hsplit, hfirst, hidx, hconforms, -, -⟩ := steps_of_proposes ha h
  obtain ⟨n, front, hfront⟩ : ∃ n front,
      Node.tokens (after, old.head.preamble.modifiers, old.head.keyword) = n :: front :=
    List.exists_cons_of_ne_nil (by simp [Node.tokens])
  obtain ⟨bs, ts, htail, hspelled⟩ :=
    exists_spelled_tail hold hmembers hsplit hfront hconforms hplain.comma
  obtain ⟨hstanding, hitem, hopen⟩ := opening_front hsplit hfront htail rfl hold
  have hmem : a.atSign ∈ Node.tokens (before ++ [a]) := by simp [Node.tokens]
  have hready : Ready (n :: (front ++ ts ++ lastBlock old ++ [Token.endOfText])) :=
    Token.ready_of_append hspelled (by simp [Node.tokens]) (by simp)
  have hnext := hplain.next n (by rw [hidx, getElem?_attributeEnd hsplit, hfront]; rfl)
  have hready' := hready.onOwnLine (Node.indentation a)
  have hline := Token.endsLine_onOwnLine (Node.indentation a) hnext
  have hopen' (leading : Trivia) : ∃ head, opening (Node.tokens before ++
      (n.onOwnLine (Node.indentation a)).withLeading leading :: (front ++ ts ++ lastBlock old)) =
        .ok (.group (.enum head), lastBlock old) := by
    rw [Token.withLeading_onOwnLine]
    exact hopen leading
  have hitem' : (n.onOwnLine (Node.indentation a)).startsItem = true := by
    have hbare := Token.bare_onOwnLine (Node.indentation a) n
    exact (congrArg Token.startsItem hbare).trans hitem
  have hat := (hstanding a (by simp)).text_atSign hspelled (List.mem_append_left _ hmem)
  obtain ⟨c, cs, body, hcomment, hleading, hchars, hbody⟩ := exists_comment hat hplain.line
  have htext : bodyChars (Node.tokens new.head) ++ listChars (lastBlock old) =
      bodyChars (Node.tokens before ++ c :: cs) ++
        listChars (n.onOwnLine (Node.indentation a) :: (front ++ ts ++ lastBlock old)) := by
    rw [bodyChars_newHead hfront hconforms.sameHead, hcomment]
    simp only [Token.listChars_cons, Token.listChars_append, htail.chars, List.append_assoc]
  cases before with
  | nil =>
    refine frontReads_first hold hmembers hready' hline hbody hopen' ?_
    rw [htext]
    exact congrArg (· ++ _) hchars
  | cons b before =>
    obtain ⟨f, vs, p, hends, hf, hp⟩ := Attribute.exists_ends
      (fun b hb ↦ hstanding b (List.mem_append_left _ hb)) (List.cons_ne_nil b before)
    have hrun (us : List Token) : f :: (vs ++ [p]) ++ us = f :: (vs ++ p :: us) := by simp
    have htokens : Node.tokens (b :: before ++ [a]) =
        f :: (vs ++ p :: a.atSign :: a.nameToken :: Node.tokens a.arguments) := by
      rw [← hrun, ← hends]
      simp [Node.tokens]
    have hx (us : List Token) : bodyChars (a.atSign :: us) ≠ [] := by simp [bodyChars, hat]
    rw [htokens, List.cons_append, List.append_assoc] at hspelled
    refine frontReads_behind hold hmembers hready' hline hbody hf hp hspelled (hx _) hitem'
      (fun leading ↦ ?_) ?_
    · rw [← hrun, ← hends]
      exact hopen' leading
    · rw [htext, hends, Token.bodyChars_append (by simp), Token.listChars_eq_bodyChars c, hchars,
        hleading]
      simp only [List.append_assoc]

example : ((proposal? "AppEnum" true 1
    "@Foo @AppEnumGenFixIt(1) // note\npublic enum A: Int, \x7b case a \x7d").any fun p ↦
      decide (PlainFront p.2.1 p.1)) = true := by decide +kernel

end EnumReplacement

end EnumForge
