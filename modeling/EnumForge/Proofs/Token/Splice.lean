import EnumForge.Proofs.Token.Spelling
import Mathlib.Data.List.Chain

/-!
# Splicing token lists

When tokens are taken out of a text or put into it, the tokens around them have other neighbours.
A token that stands before the same token as before reads as it did.  A token that stands before
another one does so unless it runs into it: because nothing is left between them and the text goes
on, or because a line comment after it is no longer ended.
-/

namespace EnumForge

open Lexeme
open Text (isWordPart isWordStart)
open Trivia (Gap ReadsBefore stops opensComment chars)

namespace Lexeme.SameEdge

theorem stops_eq {after after' : List Char} (h : SameEdge after after') (sameLine : Bool) :
    stops sameLine after' = stops sameLine after := by
  have hhead := h.head_eq
  have hcomment := h.comment_eq
  cases after with
  | nil =>
    cases after' with
    | nil => rfl
    | cons c cs => simp at hhead
  | cons d ds =>
    cases after' with
    | nil => simp at hhead
    | cons c cs =>
      simp only [List.head?_cons, Option.some.injEq] at hhead
      subst hhead
      simp only [stops, hcomment]

theorem eq_nil {after' : List Char} (h : SameEdge [] after') : after' = [] :=
  List.head?_eq_none_iff.1 h.head_eq

/-- Behind trivia nothing else matters. -/
theorem of_gap {sameLine : Bool} {ps : List TriviaPiece} {after : List Char}
    (h : Gap sameLine ps after) (hne : ps ≠ []) (after₁ after₂ : List Char) :
    SameEdge (chars ps ++ after₁) (chars ps ++ after₂) := by
  cases h with
  | stop => simp at hne
  | blank hp _ | lineBreak hp _ _ => rcases hp with rfl | rfl <;> exact .of_plain (by decide) _ _
  | lineComment | blockComment =>
    simp only [Trivia.chars_cons, TriviaPiece.text, String.toList_ofList, List.cons_append]
    exact .of_two (by decide) _ _

end Lexeme.SameEdge

namespace Trivia

theorem Gap.false_of_edge {ps : List TriviaPiece} {after after' : List Char}
    (h : Gap false ps after) (hedge : SameEdge after after') : Gap false ps after' := by
  by_cases hne : after = []
  · subst hne
    rwa [hedge.eq_nil]
  · exact h.of_stops hne (by rw [hedge.stops_eq, h.stops_after])

/-- The trivia after a token depends on the next token only by its edge. -/
theorem Gap.true_of_edge {ps : List TriviaPiece} {leading after after' : List Char}
    (h : Gap true ps (leading ++ after)) (hstop : stops false after = true)
    (hedge : SameEdge after after') : Gap true ps (leading ++ after') := by
  have hstops := (hedge.append leading).stops_eq true
  generalize hcs : leading ++ after = cs at h
  induction h with
  | stop h => exact .stop (by rw [hstops, hcs, h])
  | blank hp _ ih => exact .blank hp (ih hcs)
  | lineBreak _ hline _ _ => simp at hline
  | lineComment hbody hgap ih =>
    obtain rfl := hgap.eq_nil_of_commentBody hbody
    subst hcs
    refine .lineComment ?_ (ih rfl)
    rw [chars_nil, List.nil_append] at hbody ⊢
    rcases after with - | ⟨c, after⟩
    · rwa [hedge.eq_nil]
    · simp only [stops, Bool.false_or, Bool.and_eq_true, bne_iff_ne] at hstop
      have hmem := newline_mem_of_commentBody hbody hstop.1.2
      exact commentBody_of_newline_mem hbody hmem _
  | blockComment hbody _ ih => exact .blockComment (splitAtFirst?_block hbody _) (ih hcs)

end Trivia

namespace Token

theorem CutBefore.of_edge {t : Token} {after after' : List Char} (h : t.CutBefore after)
    (hedge : SameEdge after after') : t.CutBefore after' := by
  obtain ⟨c, tail, htext, hcut⟩ := h
  exact ⟨c, tail, htext, hcut.of_edge hedge⟩

/-! ### Keeping a token -/

/-- `after` stands where `before` stood, and the token before it reads as it did. -/
structure InStep (before after : List Token) : Prop where
  spelled : Spelled after
  edge : SameEdge (bodyChars before) (bodyChars after)

theorem InStep.refl {ts : List Token} (h : Spelled ts) : InStep ts ts := ⟨h, .refl _⟩

/-- A token that stays before the same token stays as it is; what leads it does not matter. -/
theorem InStep.keep {a b c : Token} {bs cs : List Token} (h : InStep (b :: bs) (c :: cs))
    (hleading : c.leading = b.leading) (hspelled : Spelled (a :: b :: bs)) (leading : Trivia) :
    InStep (a :: b :: bs) (a.withLeading leading :: c :: cs) := by
  obtain ⟨hcut, ⟨ps, hps, htrailing⟩, ⟨qs, hqs, hgap⟩, -⟩ := hspelled
  have hlist := listChars_eq_bodyChars b bs
  have hlist' := listChars_eq_bodyChars c cs
  rw [hleading] at hlist'
  have hedge : SameEdge (listChars (b :: bs)) (listChars (c :: cs)) := by
    rw [hlist, hlist']
    exact h.edge.append _
  refine ⟨⟨?_, ⟨ps, hps, ?_⟩, ⟨qs, hleading.trans hqs, ?_⟩, h.spelled⟩, ?_⟩
  · exact hcut.of_edge (hedge.append a.trailing.text.toList)
  · rw [hlist] at htrailing
    rw [hlist']
    exact htrailing.true_of_edge hgap.stops_after h.edge
  · exact hgap.false_of_edge h.edge
  · exact (hedge.append a.trailing.text.toList).append a.text.toList

/-- A run of tokens before the same token stays as it is. -/
theorem InStep.append {b c : Token} {bs cs : List Token} (h : InStep (b :: bs) (c :: cs))
    (hleading : c.leading = b.leading) {ts : List Token} (hspelled : Spelled (ts ++ b :: bs)) :
    InStep (ts ++ b :: bs) (ts ++ c :: cs) := by
  induction ts with
  | nil => exact h
  | cons a ts ih =>
    cases ts with
    | nil => exact h.keep hleading hspelled a.leading
    | cons a' ts => exact (ih hspelled.2.2.2).keep rfl hspelled a.leading

/-! ### Running into the next token -/

/-- Whether the text of the token goes on over `c`. -/
def continues (t : Token) (c : Char) : Bool :=
  match t.kind with
  | .identifier => t.text.toList.getLast? != some '\x60' && isWordPart c
  | .keyword | .poundKeyword => isWordPart c
  | .numberLiteral => Lexeme.isNumberPart c
  | .operator | .equal | .arrow =>
    if t.text = "#" then isWordStart c else Lexeme.isOperatorChar c
  | _ => false

theorem getLast?_ne_tick_of_word {c : Char} {tail : List Char}
    (hc : (c = '$' || isWordStart c) = true) (htail : ∀ d ∈ tail, isWordPart d = true) :
    (c :: tail).getLast? ≠ some '\x60' := by
  intro hlast
  have hmem : '\x60' ∈ c :: tail := List.mem_of_getLast? hlast
  rcases List.mem_cons.1 hmem with rfl | hmem
  · revert hc
    decide
  · exact absurd (htail _ hmem) (by decide)

theorem numberTail_of_not_part {tail after : List Char} {c : Char}
    (h : numberTail (tail ++ after) = (tail, after)) (hpart : isNumberPart c = false)
    (hpoint : c ≠ '.') (rest : List Char) :
    numberTail (tail ++ c :: rest) = (tail, c :: rest) := by
  induction tail with
  | nil => simp [numberTail, hpart, hpoint]
  | cons d tail ih =>
    rw [List.cons_append, numberTail] at h ⊢
    split at h
    next hgo =>
      simp only [Prod.mk.injEq, List.cons.injEq, true_and] at h
      have htail : numberTail (tail ++ after) = (tail, after) := Prod.ext h.1 h.2
      rw [ih htail, if_pos]
      cases tail with
      | cons e tail => exact hgo
      | nil =>
        -- A point at the end would have a digit after it, and so not be at the end.
        simp only [Bool.or_eq_true, Bool.and_eq_true] at hgo
        rcases hgo with hgo | ⟨-, hdigit⟩
        · simp [hgo]
        · cases after with
          | nil => simp at hdigit
          | cons e after =>
            have hnumber : isNumberPart e = true := by
              simp only [List.nil_append, List.head?_cons, Option.any_some] at hdigit
              simp [isNumberPart, Char.isAlphanum, hdigit]
            simp [numberTail, hnumber] at htail
    next => simp at h

theorem operatorTail_of_not_operator {tail after : List Char} {c : Char}
    (h : operatorTail (tail ++ after) = (tail, after)) (hc : isOperatorChar c = false)
    (rest : List Char) : operatorTail (tail ++ c :: rest) = (tail, c :: rest) := by
  induction tail with
  | nil => simp [operatorTail, hc]
  | cons d tail ih =>
    rw [List.cons_append, operatorTail] at h ⊢
    split at h
    next hgo =>
      simp only [Prod.mk.injEq, List.cons.injEq, true_and] at h
      rw [ih (Prod.ext h.1 h.2), if_pos]
      cases tail with
      | cons e tail => exact hgo
      | nil =>
        have hne : c ≠ '/' ∧ c ≠ '*' := by
          refine ⟨?_, ?_⟩ <;> rintro rfl <;> revert hc <;> decide
        simp only [Bool.and_eq_true] at hgo
        simp [hgo.1, hne]
    next => simp at h

theorem continues_of_operatorKind {t : Token} {text : List Char}
    (hkind : t.kind = operatorKind text) (htext : t.text ≠ "#") (c : Char) :
    t.continues c = isOperatorChar c := by
  unfold operatorKind at hkind
  unfold continues
  split at hkind
  · simp [hkind, htext]
  split at hkind
  · simp [hkind, htext]
  · simp [hkind, htext]

theorem continues_of_wordKind {t : Token} (hkind : t.kind = wordKind t.text.toList)
    (hlast : t.text.toList.getLast? ≠ some '\x60') (c : Char) : t.continues c = isWordPart c := by
  unfold wordKind at hkind
  unfold continues
  split at hkind
  · simp [hkind]
  · simp [hkind, hlast]

/-- A token whose text does not go on over `c` is cut before it. -/
theorem CutBefore.of_not_continues {t : Token} {after : List Char} (h : t.CutBefore after)
    {c : Char} (hc : c ≠ '.' ∧ c ≠ '#' ∧ c ≠ '\x22') (hcont : t.continues c = false)
    (rest : List Char) : t.CutBefore (c :: rest) := by
  obtain ⟨d, tail, htext, hrule⟩ := h
  obtain ⟨hpoint, hhash, hquote⟩ := hc
  refine ⟨d, tail, htext, ?_⟩
  generalize hkind : t.kind = kind at hrule
  cases hrule with
  | string hd h => exact .string hd (closeString?_append h (by simp [hquote]))
  | ticked hd h => exact .ticked hd (closeOnLine?_append (by simp) h _)
  | word hd h =>
    obtain ⟨hall, -⟩ := wordTail_eq_iff.1 h
    rw [← htext] at hkind
    rw [continues_of_wordKind hkind (htext ▸ getLast?_ne_tick_of_word hd hall)] at hcont
    exact .word hd (wordTail_eq_iff.2 ⟨hall, by simpa using hcont⟩)
  | number hword hd h =>
    have hpart : isNumberPart c = false := by simpa [continues, hkind] using hcont
    exact .number hword hd (numberTail_of_not_part h hpart hpoint rest)
  | rawString hd hhashes h => exact .rawString hd hhashes (closeRawString?_append h _)
  | directive hd hword h =>
    obtain ⟨hall, -⟩ := wordTail_eq_iff.1 h
    have hpart : isWordPart c = false := by simpa [continues, hkind] using hcont
    exact .directive hd hword (wordTail_eq_iff.2 ⟨hall, by simpa using hpart⟩)
  | hash hd hraw hword =>
    have hpound : t.text = "#" := String.toList_inj.1 (htext.trans (by rw [hd]; rfl))
    have hstart : isWordStart c = false := by simpa [continues, hkind, hpound] using hcont
    exact .hash hd (by simp [opensRawString, hhash, hquote]) (by simpa using hstart)
  | punctuation hd => exact .punctuation hd
  | operator hd h =>
    have hpound : t.text ≠ "#" := by
      intro heq
      rw [heq] at htext
      obtain rfl : '#' = d := (List.cons.inj htext).1
      revert hd
      decide
    rw [continues_of_operatorKind hkind hpound] at hcont
    exact .operator hd (operatorTail_of_not_operator h hcont rest)

/-- No token goes on over whitespace. -/
theorem CutBefore.of_isWhite {t : Token} {after : List Char} (h : t.CutBefore after) {c : Char}
    (hc : Trivia.isWhite c = true) (rest : List Char) : t.CutBefore (c :: rest) := by
  simp only [Trivia.isWhite, Bool.or_eq_true, beq_iff_eq] at hc
  have hclass : isWordPart c = false ∧ isWordStart c = false ∧ isNumberPart c = false ∧
      isOperatorChar c = false := by
    rcases hc with ((rfl | rfl) | rfl) | rfl <;> decide
  have hplain : c ≠ '.' ∧ c ≠ '#' ∧ c ≠ '\x22' := by
    rcases hc with ((rfl | rfl) | rfl) | rfl <;> decide
  refine h.of_not_continues hplain ?_ rest
  unfold continues
  split <;> simp [hclass]

end Token

/-- Whether a line comment is among the pieces. -/
def Trivia.hasLineComment (t : Trivia) : Bool :=
  t.pieces.any fun p ↦ p matches .lineComment _

theorem Trivia.hasLineComment_push (t : Trivia) (p : TriviaPiece) :
    (t.push p).hasLineComment = (t.hasLineComment || p matches .lineComment _) := by
  obtain ⟨ps⟩ := t
  simp only [push, hasLineComment]
  fun_induction pushPiece p ps with
  | case1 => simp
  | case2 q merged h => cases q <;> cases p <;> simp_all [TriviaPiece.merge?] <;> simp [← h]
  | case3 q h => simp
  | case4 q r ps ih => simp [ih, Bool.or_assoc]

theorem Trivia.hasLineComment_ofPieces (ps : List TriviaPiece) :
    (ofPieces ps).hasLineComment = ps.any fun p ↦ p matches .lineComment _ := by
  have hfold (acc : Trivia) : (ps.foldl push acc).hasLineComment =
      (acc.hasLineComment || ps.any fun p ↦ p matches .lineComment _) := by
    induction ps generalizing acc with
    | nil => simp
    | cons p ps ih => simp [ih, hasLineComment_push, Bool.or_assoc]
  exact hfold .empty

namespace Token

/-- Whether the token does not stay apart from the next one: a line comment after it goes on over
the next token, or nothing stands between them and its text goes on. -/
def runsInto (a b : Token) : Bool :=
  a.trailing.hasLineComment && !Trivia.endsLine b.leading.text.toList ||
    a.trailing.text == "" && b.leading.text == "" && b.text.toList.head?.any a.continues

/-- The token could be cut from some text, together with the trivia after it. -/
def Sound (t : Token) : Prop :=
  ∃ after, t.CutBefore (t.trailing.text.toList ++ after) ∧ t.trailing.ReadsBefore true after

theorem Sound.of_spelled {a b : Token} {ts : List Token} (h : Spelled (a :: b :: ts)) : a.Sound :=
  ⟨_, h.1, h.2.1⟩

/-- Tokens that may stand behind another one: nothing on the line before is left to them. -/
def Ready : List Token → Prop
  | [] => False
  | n :: ns => Spelled (n :: ns) ∧ n.leading.ReadsBefore false (bodyChars (n :: ns)) ∧
      ∀ c ∈ n.leading.text.toList.head?, c = '\n' ∨ c = '\r'

theorem Ready.of_spelled {a b : Token} {ts : List Token} (h : Spelled (a :: b :: ts)) :
    Ready (b :: ts) := by
  obtain ⟨-, ⟨_, -, htrailing⟩, ⟨qs, hqs, hleading⟩, hspelled⟩ := h
  refine ⟨hspelled, ⟨qs, hqs, hleading⟩, ?_⟩
  have hstop := htrailing.stops_after
  rw [listChars_eq_bodyChars] at hstop
  rw [hqs, Trivia.toList_text_ofPieces] at hstop ⊢
  exact hleading.head_eq_of_stops hstop

theorem Ready.stops {n : Token} {ns : List Token} (h : Ready (n :: ns)) :
    Trivia.stops true (listChars (n :: ns)) = true := by
  obtain ⟨-, ⟨qs, -, hgap⟩, hhead⟩ := h
  rw [listChars_eq_bodyChars]
  cases hleading : n.leading.text.toList with
  | nil =>
    have hstop := hgap.stops_after
    rw [List.nil_append]
    cases hbody : bodyChars (n :: ns) with
    | nil => rfl
    | cons c cs =>
      rw [hbody] at hstop
      simp only [Trivia.stops, Bool.and_eq_true] at hstop ⊢
      simp [hstop]
  | cons c cs =>
    rw [hleading] at hhead
    rcases hhead c rfl with rfl | rfl <;> simp [Trivia.stops, opensComment]

/-- The trivia after a token stays as it is before a token that it does not run into. -/
theorem Sound.readsBefore {a n : Token} {ns : List Token} (h : a.Sound) (hn : Ready (n :: ns))
    (hrun : a.runsInto n = false) : a.trailing.ReadsBefore true (listChars (n :: ns)) := by
  obtain ⟨_, -, ps, hps, hgap⟩ := h
  refine ⟨ps, hps, ?_⟩
  simp only [runsInto, Bool.or_eq_false_iff, Bool.and_eq_false_imp, Bool.not_eq_false'] at hrun
  by_cases hcomment : a.trailing.hasLineComment = true
  · have hline : Trivia.endsLine (listChars (n :: ns)) = true := by
      obtain ⟨k, rest, hk⟩ := Trivia.exists_of_endsLine (hrun.1 hcomment)
      rw [listChars_eq_bodyChars, hk, List.append_assoc, Trivia.endsLine,
        List.dropWhile_append_of_pos]
      · rfl
      · intro c hc
        rw [List.eq_of_mem_replicate hc]
        rfl
    exact hgap.of_endsLine hline
  · refine hgap.of_no_lineComment (fun text hmem ↦ hcomment ?_) hn.stops
    rw [hps, Trivia.hasLineComment_ofPieces]
    exact List.any_eq_true.2 ⟨_, hmem, rfl⟩

/-- A token of one character that ends wherever it stands. -/
def IsPunctuation (t : Token) : Prop := ∃ c, t.text.toList = [c] ∧ punctuation? c = some t.kind

theorem IsPunctuation.cutBefore {t : Token} (h : t.IsPunctuation) (after : List Char) :
    t.CutBefore after := by
  obtain ⟨c, htext, hc⟩ := h
  exact ⟨c, [], htext, .punctuation hc⟩

/-- A punctuation mark other than a point starts nothing longer. -/
theorem plain_of_punctuation? {c : Char} {kind : TokenKind} (h : punctuation? c = some kind)
    (hkind : kind ≠ .period) : c ≠ '.' ∧ c ≠ '/' ∧ c ≠ '#' := by
  refine ⟨?_, ?_, ?_⟩
  · rintro rfl
    exact hkind (Option.some.inj h).symm
  · rintro rfl
    simp [punctuation?] at h
  · rintro rfl
    simp [punctuation?] at h

theorem IsPunctuation.sameEdge {t : Token} (h : t.IsPunctuation) (hkind : t.kind ≠ .period)
    (after after' : List Char) : SameEdge (t.text.toList ++ after) (t.text.toList ++ after') := by
  obtain ⟨c, htext, hc⟩ := h
  rw [htext]
  exact .of_plain (plain_of_punctuation? hc hkind) _ _

/-- The kinds of punctuation. -/
def punctuationKinds : List TokenKind :=
  [.atSign, .colon, .comma, .period, .semicolon, .leftBrace, .rightBrace, .leftParen, .rightParen,
   .leftSquare, .rightSquare]

/-- Punctuation is known by its kind. -/
theorem CutBefore.isPunctuation {t : Token} {after : List Char} (h : t.CutBefore after)
    (hkind : t.kind ∈ punctuationKinds) : t.IsPunctuation := by
  obtain ⟨c, tail, htext, hrule⟩ := h
  generalize hk : t.kind = kind at hrule hkind
  cases hrule with
  | string | ticked | number | rawString | directive | hash => simp [punctuationKinds] at hkind
  | word =>
    unfold wordKind at hkind
    split at hkind <;> simp [punctuationKinds] at hkind
  | operator =>
    unfold operatorKind at hkind
    split at hkind
    · simp [punctuationKinds] at hkind
    split at hkind <;> simp [punctuationKinds] at hkind
  | punctuation hc => exact ⟨c, htext, hk ▸ hc⟩

/-- The end of the file is not cut from a text. -/
theorem CutBefore.kind_ne {t : Token} {after : List Char} (h : t.CutBefore after) :
    t.kind ≠ .endOfFile := by
  obtain ⟨c, tail, -, hrule⟩ := h
  generalize t.kind = kind at hrule
  cases hrule with
  | string | ticked | number | rawString | directive | hash => simp
  | word => unfold wordKind; split <;> simp
  | operator => unfold operatorKind; split <;> [skip; split] <;> simp
  | punctuation hc =>
    rintro rfl
    unfold punctuation? at hc
    split at hc <;> simp at hc

/-- The first character of the text is not one that the tokens before it could take on. -/
def StartsApart (t : Token) : Prop :=
  ∃ c tail, t.text.toList = c :: tail ∧ c ≠ '.' ∧ c ≠ '#' ∧ c ≠ '\x22'

/-- A token is cut as it was before a token that it does not run into. -/
theorem Sound.cutBefore {a n : Token} {ns : List Token} (h : a.Sound) (hn : Ready (n :: ns))
    (hrun : a.runsInto n = false) (hnext : a.IsPunctuation ∨ n.StartsApart) :
    a.CutBefore (a.trailing.text.toList ++ listChars (n :: ns)) := by
  rcases hnext with hnext | ⟨c, tail, htext, hc⟩
  · exact hnext.cutBefore _
  obtain ⟨after, hcut, ps, hps, hgap⟩ := h
  have htrailing : a.trailing.text.toList = chars ps := by
    rw [hps, Trivia.toList_text_ofPieces]
  rw [htrailing] at hcut ⊢
  by_cases hnil : ps = []
  · subst hnil
    rw [Trivia.chars_nil, List.nil_append] at hcut ⊢
    rw [listChars_eq_bodyChars]
    cases hleading : n.leading.text.toList with
    | nil =>
      have hcont : a.continues c = false := by
        have htrailing : a.trailing.text = "" := String.toList_inj.1 htrailing
        have hleading : n.leading.text = "" := String.toList_inj.1 hleading
        simpa [runsInto, htrailing, hleading, htext] using (Bool.or_eq_false_iff.1 hrun).2
      rw [List.nil_append, bodyChars, htext]
      exact hcut.of_not_continues hc hcont _
    | cons d cs =>
      have hd := hn.2.2 d (by rw [hleading]; rfl)
      exact hcut.of_isWhite (by rcases hd with rfl | rfl <;> rfl) _
  · exact hcut.of_edge (.of_gap hgap hnil _ _)

/-- A token stands before others if it does not run into the first of them. -/
theorem Sound.spelled_cons {a n : Token} {ns : List Token} (h : a.Sound) (hn : Ready (n :: ns))
    (hrun : a.runsInto n = false) (hnext : a.IsPunctuation ∨ n.StartsApart) :
    Spelled (a :: n :: ns) :=
  ⟨h.cutBefore hn hrun hnext, h.readsBefore hn hrun, hn.2.1, hn.1⟩

/-! ### Exchanging the tokens behind a token -/

/-- An at-sign or a word in lower case. -/
def StartsSoft (t : Token) : Prop :=
  ∃ c tail, t.text.toList = c :: tail ∧ (c = '@' ∨ c.isLower = true)

theorem StartsSoft.startsApart {t : Token} (h : t.StartsSoft) : t.StartsApart := by
  obtain ⟨c, tail, htext, hc⟩ := h
  refine ⟨c, tail, htext, ?_⟩
  rcases hc with rfl | hc
  · decide
  · refine ⟨?_, ?_, ?_⟩ <;> rintro rfl <;> revert hc <;> decide

theorem IsPunctuation.startsSoft {t : Token} (h : t.IsPunctuation) (hkind : t.kind = .atSign) :
    t.StartsSoft := by
  obtain ⟨c, htext, hc⟩ := h
  refine ⟨c, [], htext, .inl ?_⟩
  rw [hkind] at hc
  fun_cases punctuation? c <;> simp_all [punctuation?]

theorem StartsSoft.isMild {n : Token} {ns : List Token} (h : n.StartsSoft) (hn : Ready (n :: ns)) :
    ∀ c ∈ (listChars (n :: ns)).head?, isMild c = true := by
  obtain ⟨d, tail, htext, hd⟩ := h
  rw [listChars_eq_bodyChars]
  cases hleading : n.leading.text.toList with
  | nil =>
    rw [List.nil_append, bodyChars, htext]
    intro c hc
    obtain rfl : d = c := by simpa using hc
    rcases hd with rfl | hd
    · decide
    · have hne : d ≠ '/' ∧ d ≠ '*' ∧ d ≠ '\x22' ∧ d ≠ '#' := by
        refine ⟨?_, ?_, ?_, ?_⟩ <;> rintro rfl <;> revert hd <;> decide
      have hdigit : d.isDigit = false := by
        have hlower : d.isLower = (d.val ≥ 'a'.val && d.val ≤ 'z'.val) := rfl
        simp only [hlower, Char.isDigit, Bool.and_eq_true, decide_eq_true_eq,
          Bool.and_eq_false_imp, decide_eq_false_iff_not] at hd ⊢
        intro _ hle
        have := hd.1
        simp only [ge_iff_le, UInt32.le_iff_toNat_le] at this hle
        revert this hle
        simp
        omega
      simp [Lexeme.isMild, hne, hdigit]
  | cons e cs =>
    intro c hc
    have hline := hn.2.2 e (by rw [hleading]; rfl)
    obtain rfl : e = c := by simpa using hc
    rcases hline with rfl | rfl <;> decide

theorem spelled_withLeading {t : Token} {ts : List Token} (leading : Trivia) :
    Spelled (t.withLeading leading :: ts) ↔ Spelled (t :: ts) := by
  cases ts <;> rfl

/-- `after` may stand where `before` stood.  Either the first token looks the same to the token
before it, or both start in a way that hardly any token takes on. -/
inductive StandsFor : List Token → List Token → Prop where
  | inStep {b c : Token} {bs cs : List Token} (h : InStep (b :: bs) (c :: cs))
      (hleading : c.leading = b.leading) : StandsFor (b :: bs) (c :: cs)
  | soft {b c : Token} {bs cs : List Token} (hb : b.StartsSoft) (hc : c.StartsSoft)
      (h : Spelled (c :: cs)) (hleading : c.leading = b.leading ∨ Ready (c :: cs)) :
      StandsFor (b :: bs) (c :: cs)

theorem StandsFor.refl {t : Token} {ts : List Token} (h : Spelled (t :: ts)) :
    StandsFor (t :: ts) (t :: ts) := .inStep (.refl h) rfl

theorem StandsFor.spelled {before after : List Token} (h : StandsFor before after) :
    Spelled after := by
  cases h with
  | inStep h => exact h.spelled
  | soft _ _ h => exact h

theorem StartsSoft.stops {t : Token} (h : t.StartsSoft) (ts : List Token) :
    Trivia.stops false (bodyChars (t :: ts)) = true := by
  obtain ⟨c, tail, htext, hc⟩ := h
  have hne : c ≠ ' ' ∧ c ≠ '\t' ∧ c ≠ '\n' ∧ c ≠ '\r' ∧ c ≠ '/' := by
    refine ⟨?_, ?_, ?_, ?_, ?_⟩ <;> rintro rfl <;> revert hc <;> decide
  rw [bodyChars, htext]
  simp [Trivia.stops, opensComment, hne]

theorem StandsFor.ready {before after : List Token} (h : StandsFor before after)
    (hbefore : Ready before) : Ready after := by
  cases h with
  | inStep h hleading =>
    obtain ⟨-, ⟨qs, hqs, hgap⟩, hhead⟩ := hbefore
    rw [← hleading] at hqs hhead
    exact ⟨h.spelled, ⟨qs, hqs, hgap.false_of_edge h.edge⟩, hhead⟩
  | @soft b c bs cs hb hc h hleading =>
    rcases hleading with hleading | hready
    · obtain ⟨-, ⟨qs, hqs, hgap⟩, hhead⟩ := hbefore
      rw [← hleading] at hqs hhead
      have hne : bodyChars (b :: bs) ≠ [] := by
        obtain ⟨d, tail, htext, -⟩ := hb
        simp [bodyChars, htext]
      exact ⟨h, ⟨qs, hqs, hgap.of_stops hne (hc.stops cs)⟩, hhead⟩
    · exact hready

/-- A token stays as it is if it does not run into the token that comes to stand behind it. -/
theorem StandsFor.keep {a b c : Token} {bs cs : List Token} (h : StandsFor (b :: bs) (c :: cs))
    (hspelled : Spelled (a :: b :: bs)) (hrun : c.StartsSoft → a.runsInto c = false)
    (leading : Trivia) : InStep (a :: b :: bs) (a.withLeading leading :: c :: cs) := by
  have hbefore : Ready (b :: bs) := .of_spelled hspelled
  have hafter := h.ready hbefore
  cases h with
  | inStep h hleading => exact h.keep hleading hspelled leading
  | soft hb hc h =>
    have hsound : a.Sound := .of_spelled hspelled
    refine ⟨?_, ?_⟩
    · rw [spelled_withLeading]
      exact hsound.spelled_cons hafter (hrun hc) (.inr hc.startsApart)
    · obtain ⟨-, ⟨d, tail, htext, -⟩, -⟩ := hsound
      have hne : a.text.toList ++ a.trailing.text.toList ≠ [] := by simp [htext]
      have hedge := SameEdge.of_isMild (hb.isMild hbefore) (hc.isMild hafter) hne
      rwa [List.append_assoc, List.append_assoc] at hedge

/-- No token runs into one on the next line. -/
theorem runsInto_of_endsLine (z : Token) {n : Token}
    (hline : Trivia.endsLine n.leading.text.toList = true) : z.runsInto n = false := by
  have hne : n.leading.text ≠ "" := by
    intro hempty
    rw [hempty] at hline
    revert hline
    decide
  simp [runsInto, hline, hne]

/-- A line comment between two tokens ends with its line. -/
theorem endsLine_of_spelled {a b : Token} {ts : List Token} (h : Spelled (a :: b :: ts))
    (hcomment : a.trailing.hasLineComment = true) (hb : b.StartsSoft) :
    Trivia.endsLine b.leading.text.toList = true := by
  obtain ⟨-, ⟨ps, hps, hgap⟩, -⟩ := h
  obtain ⟨c, tail, htext, hc⟩ := hb
  rw [hps, Trivia.hasLineComment_ofPieces, List.any_eq_true] at hcomment
  obtain ⟨p, hmem, hp⟩ := hcomment
  obtain ⟨text, rfl⟩ : ∃ text, p = .lineComment text := by
    cases p <;> simp at hp
    exact ⟨_, rfl⟩
  rw [listChars_eq_bodyChars, bodyChars, htext] at hgap
  refine hgap.endsLine_of_mem hmem ⟨?_, ?_⟩ <;> rintro rfl <;> revert hc <;> decide

/-- Behind a brace or a semicolon anything may come to stand on the next line. -/
theorem InStep.insert {z o n : Token} {os ns : List Token} (hspelled : Spelled (z :: o :: os))
    (hkind : z.kind = .rightBrace ∨ z.kind = .semicolon) (hn : Ready (n :: ns))
    (hline : Trivia.endsLine n.leading.text.toList = true) :
    InStep (z :: o :: os) (z :: n :: ns) := by
  have hpunct : z.IsPunctuation := by
    refine hspelled.1.isPunctuation ?_
    rcases hkind with hkind | hkind <;> simp [hkind, punctuationKinds]
  have hrun := z.runsInto_of_endsLine hline
  refine ⟨(Sound.of_spelled hspelled).spelled_cons hn hrun (.inl hpunct), ?_⟩
  rw [bodyChars, bodyChars]
  exact hpunct.sameEdge (by rcases hkind with hkind | hkind <;> simp [hkind]) _ _

/-- `after` may stand where `before` stood, also behind the token `p`, if there is one. -/
structure Replaces (p : Option Token) (before after : List Token) : Prop where
  standsFor : StandsFor before after
  keeps : ∀ q ∈ p, Spelled (q :: before) → InStep (q :: before) (q :: after)

theorem InStep.replaces {b c : Token} {bs cs : List Token} (h : InStep (b :: bs) (c :: cs))
    (hleading : c.leading = b.leading) (p : Option Token) : Replaces p (b :: bs) (c :: cs) :=
  ⟨.inStep h hleading, fun q _ hspelled ↦ h.keep hleading hspelled q.leading⟩

theorem spelled_of_append {ts us : List Token} (h : Spelled (ts ++ us)) (hne : us ≠ []) :
    Spelled us := by
  induction ts with
  | nil => exact h
  | cons t ts ih =>
    cases hus : ts ++ us with
    | nil => exact absurd (List.append_eq_nil_iff.1 hus).2 hne
    | cons u us' =>
      rw [List.cons_append, hus] at h
      exact ih (hus ▸ h.2.2.2)

/-- A run of tokens stays as it is before what is replaced behind its last one. -/
theorem Replaces.append {before after ts : List Token} (h : Replaces ts.getLast? before after)
    (hne : ts ≠ []) (hspelled : Spelled (ts ++ before)) : InStep (ts ++ before) (ts ++ after) := by
  obtain ⟨us, q, rfl⟩ := (List.eq_nil_or_concat' ts).resolve_left hne
  rw [List.append_assoc] at hspelled ⊢
  rw [List.append_assoc]
  have hstep := h.keeps q List.getLast?_concat (spelled_of_append hspelled (by simp))
  exact hstep.append rfl hspelled

/-- Every token but the end of the file was cut. -/
theorem exists_cutBefore_of_mem {ts : List Token} (h : Spelled ts) {t : Token} (ht : t ∈ ts)
    (hkind : t.kind ≠ .endOfFile) : ∃ after, t.CutBefore after := by
  induction ts with
  | nil => simp at ht
  | cons u us ih =>
    cases us with
    | nil =>
      obtain rfl : t = u := by simpa using ht
      exact absurd h.1 hkind
    | cons v us =>
      rcases List.mem_cons.1 ht with rfl | ht
      · exact ⟨_, h.1⟩
      · exact ih h.2.2.2 ht

theorem isPunctuation_of_mem {ts : List Token} (h : Spelled ts) {t : Token} (ht : t ∈ ts)
    (hkind : t.kind ∈ punctuationKinds) : t.IsPunctuation := by
  have hne : t.kind ≠ .endOfFile := fun hend ↦ by simp [hend, punctuationKinds] at hkind
  obtain ⟨after, hcut⟩ := exists_cutBefore_of_mem h ht hne
  exact hcut.isPunctuation hkind

theorem ready_of_append {ts us : List Token} (h : Spelled (ts ++ us)) (hts : ts ≠ [])
    (hus : us ≠ []) : Ready us := by
  obtain ⟨u, us, rfl⟩ := List.exists_cons_of_ne_nil hus
  rw [← List.dropLast_append_getLast hts, List.append_assoc] at h
  exact .of_spelled (spelled_of_append h (by simp))

theorem StartsSoft.head?_ne {t : Token} (h : t.StartsSoft) (ts : List Token) :
    (bodyChars (t :: ts)).head? ≠ some '\uFEFF' := by
  obtain ⟨c, tail, htext, hc⟩ := h
  rw [bodyChars, htext]
  simp only [List.cons_append, List.head?_cons, ne_eq, Option.some.injEq]
  rintro rfl
  revert hc
  decide

theorem Ready.startsFile {n : Token} {ns : List Token} (h : Ready (n :: ns)) (hn : n.StartsSoft) :
    TokenStream.StartsFile n.leading (bodyChars (n :: ns)) := by
  obtain ⟨-, ⟨qs, hqs, hgap⟩, hhead⟩ := h
  refine ⟨qs, hgap, .inl ⟨hqs, ?_⟩⟩
  rw [hqs, Trivia.toList_text_ofPieces] at hhead
  cases hchars : chars qs with
  | nil => exact hn.head?_ne ns
  | cons d cs =>
    rw [hchars] at hhead
    rcases hhead d rfl with rfl | rfl <;> simp

/-- At the start of a file the first token may be exchanged too. -/
theorem StandsFor.startsFile {b c : Token} {bs cs : List Token}
    (h : StandsFor (b :: bs) (c :: cs))
    (hstart : TokenStream.StartsFile b.leading (bodyChars (b :: bs))) :
    TokenStream.StartsFile c.leading (bodyChars (c :: cs)) := by
  obtain ⟨ps, hgap, hmark⟩ := hstart
  cases h with
  | inStep h hleading =>
    refine ⟨ps, hgap.false_of_edge h.edge, ?_⟩
    rw [hleading, (h.edge.append (chars ps)).head_eq]
    exact hmark
  | soft hb hc h hleading =>
    rcases hleading with hleading | hready
    · have hne : bodyChars (b :: bs) ≠ [] := by
        obtain ⟨d, tail, htext, -⟩ := hb
        simp [bodyChars, htext]
      refine ⟨ps, hgap.of_stops hne (hc.stops cs), ?_⟩
      rw [hleading]
      refine hmark.imp_left fun hmark ↦ ⟨hmark.1, ?_⟩
      have hhead := hmark.2
      cases hchars : chars ps with
      | nil => exact hc.head?_ne cs
      | cons d ds =>
        rw [hchars] at hhead
        exact hhead
    · exact hready.startsFile hc

end Token

end EnumForge
