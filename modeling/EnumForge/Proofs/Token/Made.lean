import EnumForge.Proofs.Token.Splice

/-!
# Made tokens

Tokens that are built instead of read: words, quoted texts and punctuation with nothing or a single
space after them, on a line of their own or not.  Such a token stands before others as soon as its
own text does not go on over theirs.
-/

namespace EnumForge

open Lexeme
open Text (isWordPart isWordStart isWord isIdentifier unticked unticked?)
open Trivia (Gap ReadsBefore stops chars)

/-! ### Made trivia -/

namespace Trivia

/-- Trivia that is read back before every token and does not start in the middle of a line. -/
def Fresh (t : Trivia) : Prop :=
  ∃ ps, t = ofPieces ps ∧ (∀ after, stops false after = true → Gap false ps after) ∧
    ∀ c ∈ (chars ps).head?, c = '\n' ∨ c = '\r'

theorem fresh_empty : empty.Fresh := ⟨[], rfl, fun _ h ↦ .stop h, by simp⟩

/-- The pieces that an indentation is made of. -/
def blank? : Char → Option TriviaPiece
  | ' ' => some (.spaces 1)
  | '\t' => some (.tabs 1)
  | _ => none

theorem foldl_pushBlank (cs : List Char) (t : Trivia) :
    cs.foldl pushBlank t = (cs.filterMap blank?).foldl push t := by
  induction cs generalizing t with
  | nil => rfl
  | cons c cs ih =>
    have hpush : t.pushBlank c = (blank? c).elim t t.push := by
      unfold pushBlank blank?
      split <;> simp_all
    rw [List.foldl_cons, ih, List.filterMap_cons, hpush]
    cases blank? c <;> rfl

theorem foldl_push_newlines (n m : Nat) :
    (List.replicate n (.newlines 1)).foldl push ⟨[.newlines m]⟩ = ⟨[.newlines (m + n)]⟩ := by
  induction n generalizing m with
  | zero => rfl
  | succ n ih =>
    have hpush : push ⟨[.newlines m]⟩ (.newlines 1) = ⟨[.newlines (m + 1)]⟩ := rfl
    rw [List.replicate_succ, List.foldl_cons, hpush, ih]
    simp only [Nat.add_assoc, Nat.add_comm 1 n]

theorem newlinesIndent_eq_ofPieces (n : Nat) (indent : String) :
    newlinesIndent (n + 1) indent =
      ofPieces (List.replicate (n + 1) (.newlines 1) ++ indent.toList.filterMap blank?) := by
  have hfirst : push empty (.newlines 1) = ⟨[.newlines 1]⟩ := rfl
  have hlines : newlines (n + 1) = (List.replicate (n + 1) (.newlines 1)).foldl push empty := by
    rw [List.replicate_succ, List.foldl_cons, hfirst, foldl_push_newlines, Nat.add_comm 1 n]
    rfl
  rw [newlinesIndent, pushIndent, foldl_pushBlank, hlines, ofPieces, List.foldl_append]

/-- Line breaks and an indentation are fresh. -/
theorem fresh_newlinesIndent (n : Nat) (indent : String) :
    (newlinesIndent (n + 1) indent).Fresh := by
  refine ⟨_, newlinesIndent_eq_ofPieces n indent, ?_, ?_⟩
  · intro after hstop
    have hindent : Gap false (indent.toList.filterMap blank?) after := by
      induction indent.toList with
      | nil => exact .stop hstop
      | cons c cs ih =>
        rw [List.filterMap_cons]
        split
        · exact ih
        next p hp =>
          have hblank : p = .spaces 1 ∨ p = .tabs 1 := by
            fun_cases blank? c <;> simp_all [blank?]
          exact .blank hblank ih
    induction n + 1 with
    | zero => exact hindent
    | succ n ih => exact .lineBreak (.inl rfl) rfl ih
  · simp [List.replicate_succ, TriviaPiece.text]

theorem fresh_newlines (n : Nat) : (newlines (n + 1)).Fresh := fresh_newlinesIndent n ""

theorem text_newlinesIndent_ne (n : Nat) (indent : String) :
    (newlinesIndent (n + 1) indent).text ≠ "" := by
  intro h
  have hchars := congrArg String.toList h
  rw [newlinesIndent_eq_ofPieces, toList_text_ofPieces] at hchars
  simp [List.replicate_succ, TriviaPiece.text] at hchars

theorem endsLine_newlinesIndent (n : Nat) (indent : String) :
    endsLine (newlinesIndent (n + 1) indent).text.toList = true := by
  rw [newlinesIndent_eq_ofPieces, toList_text_ofPieces]
  simp [endsLine, List.replicate_succ, TriviaPiece.text]

end Trivia

namespace Token

/-- What leads a token that was read is read back before every other token. -/
theorem Ready.fresh {n : Token} {ns : List Token} (h : Ready (n :: ns))
    (hne : bodyChars (n :: ns) ≠ []) : n.leading.Fresh := by
  obtain ⟨-, ⟨ps, hps, hgap⟩, hhead⟩ := h
  refine ⟨ps, hps, fun _ ↦ hgap.of_stops hne, ?_⟩
  rwa [hps, Trivia.toList_text_ofPieces] at hhead

/-- A token as it is built: it stands at the end of a text, and only a space may follow it. -/
structure Made (t : Token) : Prop where
  cut : t.CutBefore []
  stops (rest : List Char) : stops false (t.text.toList ++ rest) = true
  leading : t.leading.Fresh
  trailing : t.trailing = .empty ∨ t.trailing = .spaces 1

theorem Made.withLeading {t : Token} (h : t.Made) {l : Trivia} (hl : l.Fresh) :
    (t.withLeading l).Made := ⟨h.cut, h.stops, hl, h.trailing⟩

theorem Made.spaced {t : Token} (h : t.Made) : t.spaced.Made :=
  ⟨h.cut, h.stops, h.leading, .inr rfl⟩

/-- Why a made token ends before the token `n`. -/
inductive Meets (a n : Token) : Prop where
  | punctuation (h : a.IsPunctuation)
  | spaced (h : a.trailing = .spaces 1)
  | line (h : n.leading.text ≠ "")
  | apart {c : Char} {tail : List Char} (htext : n.text.toList = c :: tail)
      (hc : c ≠ '.' ∧ c ≠ '#' ∧ c ≠ '\x22') (hcont : a.continues c = false)

theorem Made.cutBefore {a n : Token} {ns : List Token} (h : a.Made) (hmeets : a.Meets n)
    (hn : Ready (n :: ns)) : a.CutBefore (a.trailing.text.toList ++ listChars (n :: ns)) := by
  rcases h.trailing with htrailing | htrailing
  · rw [htrailing, listChars_eq_bodyChars]
    have hline {d : Char} {cs : List Char} (hleading : n.leading.text.toList = d :: cs) :
        a.CutBefore (n.leading.text.toList ++ bodyChars (n :: ns)) := by
      have hd := hn.2.2 d (by rw [hleading]; rfl)
      rw [hleading]
      exact h.cut.of_isWhite (by rcases hd with rfl | rfl <;> rfl) _
    cases hmeets with
    | punctuation hp => exact hp.cutBefore _
    | spaced hs =>
      simp [htrailing, Trivia.spaces, Trivia.empty, Trivia.push, Trivia.pushPiece] at hs
    | line hne =>
      obtain ⟨d, cs, hleading⟩ := List.exists_cons_of_ne_nil (l := n.leading.text.toList)
        (by simpa using hne)
      exact hline hleading
    | @apart c tail htext hc hcont =>
      cases hleading : n.leading.text.toList with
      | cons d cs =>
        have hcut := hline hleading
        rwa [hleading] at hcut
      | nil =>
        rw [bodyChars, htext]
        exact h.cut.of_not_continues hc hcont _
  · rw [htrailing]
    exact h.cut.of_isWhite rfl _

/-- A made token stands before others. -/
theorem Made.cons {a n : Token} {ns : List Token} (h : a.Made) (hmeets : a.Meets n)
    (hn : Ready (n :: ns)) : Ready (a :: n :: ns) := by
  obtain ⟨ps, hps, hgap, hhead⟩ := h.leading
  refine ⟨⟨h.cutBefore hmeets hn, ?_, hn.2.1, hn.1⟩, ⟨ps, hps, hgap _ (h.stops _)⟩, ?_⟩
  · rcases h.trailing with htrailing | htrailing <;> rw [htrailing]
    · exact ⟨[], rfl, .stop hn.stops⟩
    · exact ⟨[.spaces 1], rfl, .blank (.inl rfl) (.stop hn.stops)⟩
  · rw [hps, Trivia.toList_text_ofPieces]
    exact hhead

/-- A made token that ends wherever it stands. -/
theorem Made.cons_of_meets {a : Token} {ns : List Token} (h : a.Made) (hmeets : ∀ n, a.Meets n)
    (hn : Ready ns) : Ready (a :: ns) := by
  cases ns with
  | nil => exact hn.elim
  | cons n ns => exact h.cons (hmeets n) hn

/-! ### The tokens that are made -/

theorem made_of_isPunctuation {t : Token} (h : t.IsPunctuation) (hleading : t.leading = .empty)
    (htrailing : t.trailing = .empty) : t.Made := by
  refine ⟨h.cutBefore [], ?_, hleading ▸ Trivia.fresh_empty, .inl htrailing⟩
  intro rest
  obtain ⟨c, htext, hc⟩ := h
  have hne : c ≠ ' ' ∧ c ≠ '\t' ∧ c ≠ '\n' ∧ c ≠ '\r' ∧ c ≠ '/' := by
    refine ⟨?_, ?_, ?_, ?_, ?_⟩ <;> rintro rfl <;> simp [punctuation?] at hc
  rw [htext]
  simp [Trivia.stops, Trivia.opensComment, hne]

theorem isPunctuation_colon : colon.IsPunctuation := ⟨':', rfl, rfl⟩

theorem isPunctuation_comma : comma.IsPunctuation := ⟨',', rfl, rfl⟩

theorem isPunctuation_period : period.IsPunctuation := ⟨'.', rfl, rfl⟩

theorem isPunctuation_leftBrace : leftBrace.IsPunctuation := ⟨'\x7b', rfl, rfl⟩

theorem isPunctuation_rightBrace : rightBrace.IsPunctuation := ⟨'\x7d', rfl, rfl⟩

theorem isPunctuation_leftSquare : leftSquare.IsPunctuation := ⟨'[', rfl, rfl⟩

theorem isPunctuation_rightSquare : rightSquare.IsPunctuation := ⟨']', rfl, rfl⟩

/-- A word is made as the token that a word of its text is read as. -/
theorem made_word {text : String} (h : isWord text.toList = true) :
    (plain (wordKind text.toList) text).Made := by
  cases hchars : text.toList with
  | nil => simp [hchars, isWord] at h
  | cons c tail =>
    rw [hchars] at h
    simp only [isWord, Bool.and_eq_true, List.all_eq_true] at h
    obtain ⟨hc, htail⟩ := h
    refine ⟨⟨c, tail, hchars, ?_⟩, ?_, Trivia.fresh_empty, .inl rfl⟩
    · exact .word (by simp [hc]) (wordTail_eq_iff.2 ⟨htail, by simp⟩)
    · intro rest
      have hne : c ≠ ' ' ∧ c ≠ '\t' ∧ c ≠ '\n' ∧ c ≠ '\r' ∧ c ≠ '/' := by
        refine ⟨?_, ?_, ?_, ?_, ?_⟩ <;> rintro rfl <;> revert hc <;> decide
      have htext : (plain (wordKind (c :: tail)) text).text.toList = c :: tail := hchars
      rw [htext]
      simp [Trivia.stops, Trivia.opensComment, hne]

theorem eq_of_unticked? {cs inner : List Char} (h : unticked? cs = some inner) :
    cs = '\x60' :: (inner ++ ['\x60']) := by
  unfold unticked? at h
  split at h
  · simp at h
  next c cs =>
    split at h
    next hticks =>
      obtain ⟨rfl, hlast⟩ := hticks
      simp only [Option.some.injEq] at h
      obtain ⟨rest, rfl⟩ := List.getLast?_eq_some_iff.1 hlast
      rw [← h, List.dropLast_concat]
    next => simp at h

theorem not_mem_of_isWord {cs : List Char} (h : isWord cs = true) {c : Char}
    (hc : isWordPart c = false) : c ∉ cs := by
  cases cs with
  | nil => simp
  | cons d cs =>
    simp only [isWord, Bool.and_eq_true, List.all_eq_true] at h
    intro hmem
    rcases List.mem_cons.1 hmem with rfl | hmem
    · have hpart : isWordPart c = true := by
        have hstart := h.1
        simp only [isWordStart, Bool.or_eq_true] at hstart
        simp only [isWordPart, Bool.or_eq_true]
        exact .inl hstart
      simp [hc] at hpart
    · simp [h.2 c hmem] at hc

theorem splitAtFirst?_of_not_mem {c : Char} {cs : List Char} (h : c ∉ cs) (rest : List Char) :
    Text.splitAtFirst? [c] (cs ++ c :: rest) = some (cs, rest) := by
  induction cs with
  | nil => simp [Text.splitAtFirst?]
  | cons d cs ih =>
    simp only [List.mem_cons, not_or] at h
    have hstart : [c].isPrefixOf (d :: (cs ++ c :: rest)) = false := by
      simp [List.isPrefixOf, h.1]
    rw [List.cons_append, Text.splitAtFirst?, hstart, ih h.2]
    rfl

/-- Identifiers are made as the tokens they are read as. -/
theorem made_identifier {text : String} (h : isIdentifier text = true) :
    (plain .identifier text).Made := by
  unfold isIdentifier at h
  split at h
  next inner hinner =>
    have hchars := eq_of_unticked? hinner
    have htick := not_mem_of_isWord h (c := '\x60') (by decide)
    have hline := not_mem_of_isWord h (c := '\n') (by decide)
    refine ⟨⟨'\x60', inner ++ ['\x60'], hchars, .ticked rfl ?_⟩, ?_, Trivia.fresh_empty, .inl rfl⟩
    · rw [List.append_nil, closeOnLine?, splitAtFirst?_of_not_mem htick]
      simp [hline]
    · intro rest
      have htext : (plain .identifier text).text.toList = '\x60' :: (inner ++ ['\x60']) := hchars
      rw [htext]
      simp [Trivia.stops, Trivia.opensComment]
  next =>
    simp only [Bool.and_eq_true, Bool.not_eq_true'] at h
    have hkind : wordKind text.toList = .identifier := by
      simp [wordKind, String.ofList_toList, h.1]
    rw [← hkind]
    exact made_word h.2

theorem closeQuote?_escape {value : List Char} (h : '\n' ∉ value) (rest : List Char) :
    closeQuote? (escape value ++ '\x22' :: rest) = some (escape value ++ ['\x22'], rest) := by
  induction value with
  | nil => rfl
  | cons c value ih =>
    simp only [List.mem_cons, not_or] at h
    rw [escape]
    split
    · simp [closeQuote?, ih h.2]
    next hplain =>
      simp only [not_or] at hplain
      rw [List.cons_append, closeQuote?.eq_6 _ _ hplain.2 hplain.1 (Ne.symm h.1), ih h.2]
      rfl

/-- An escaped text does not start with a quote, so no literal of three quotes is opened. -/
theorem closeString?_escape (value : List Char) :
    closeString? (escape value ++ ['\x22']) = closeQuote? (escape value ++ ['\x22']) := by
  have hquotes : ∀ cs, escape value ++ ['\x22'] = '\x22' :: '\x22' :: cs → False := by
    intro cs hcs
    cases value with
    | nil => simp [escape] at hcs
    | cons c value =>
      rw [escape] at hcs
      split at hcs
      · simp at hcs
      next hplain =>
        simp only [List.cons_append, List.cons.injEq] at hcs
        exact hplain (.inl hcs.1)
  exact closeString?.eq_2 _ hquotes

theorem toList_text_stringLiteral (value : String) :
    (stringLiteral value).text.toList = '\x22' :: (escape value.toList ++ ['\x22']) := by
  simp [stringLiteral, plain]

/-- The literal of a text without line breaks is read as one token. -/
theorem made_stringLiteral {value : String} (h : '\n' ∉ value.toList) :
    (stringLiteral value).Made := by
  have hchars := toList_text_stringLiteral value
  refine ⟨⟨'\x22', _, hchars, .string rfl ?_⟩, ?_, Trivia.fresh_empty, .inl rfl⟩
  · rw [List.append_nil, closeString?_escape, closeQuote?_escape h []]
  · intro rest
    rw [hchars]
    simp [Trivia.stops, Trivia.opensComment]

theorem made_equal : equal.Made := by
  refine ⟨⟨'=', [], rfl, ?_⟩, ?_, Trivia.fresh_empty, .inl rfl⟩
  · exact rule_of_cut (by decide)
  · intro rest
    simp [equal, plain, Trivia.stops, Trivia.opensComment]

end Token

end EnumForge
