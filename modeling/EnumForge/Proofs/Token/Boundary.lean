import EnumForge.Proofs.Trivia.Gap
import EnumForge.Token.Lexeme

/-!
# Where a token ends

A rule that cuts a token looks at the text after the token only at its edge: at the next character,
at whether a comment starts there, at whether a point is followed by a digit, and at whether a quote
follows a run of hashes.  A token that ends before one text ends before every text with the same
edge.
-/

namespace EnumForge.Lexeme

open Text
open Trivia (opensComment)

/-- A point before a digit, over which a number goes on. -/
def opensFraction : List Char → Bool
  | [] => false
  | c :: cs => c == '.' && cs.head?.any Char.isDigit

/-- A quote after any number of hashes, which a hash before them would open as a raw string. -/
def opensRawString (cs : List Char) : Bool := (cs.dropWhile (· == '#')).head? == some '\x22'

/-- A character that makes neither a comment, a fraction nor a raw string of those before it. -/
def isMild (c : Char) : Bool := !c.isDigit && c != '/' && c != '*' && c != '\x22' && c != '#'

/-- A token that ends before `after` also ends before `after'`. -/
structure SameEdge (after after' : List Char) : Prop where
  head_eq : after'.head? = after.head?
  comment_eq : opensComment after' = opensComment after
  fraction : opensFraction after' = true → opensFraction after = true
  rawString : opensRawString after' = true → opensRawString after = true

namespace SameEdge

theorem refl (after : List Char) : SameEdge after after := ⟨rfl, rfl, id, id⟩

theorem cons {after after' : List Char} (h : SameEdge after after') (c : Char) :
    SameEdge (c :: after) (c :: after') := by
  refine ⟨rfl, ?_, ?_, ?_⟩
  · simp [opensComment, h.head_eq]
  · simp [opensFraction, h.head_eq]
  · intro hraw
    by_cases hc : c = '#'
    · have hrun (cs : List Char) : opensRawString ('#' :: cs) = opensRawString cs := by
        simp [opensRawString]
      rw [hc, hrun] at hraw ⊢
      exact h.rawString hraw
    · simpa [opensRawString, List.dropWhile_cons, hc] using hraw

theorem append {after after' : List Char} (h : SameEdge after after') (cs : List Char) :
    SameEdge (cs ++ after) (cs ++ after') := by
  induction cs with
  | nil => exact h
  | cons c cs ih => exact ih.cons c

/-- Behind most characters nothing else matters. -/
theorem of_plain {c : Char} (hc : c ≠ '.' ∧ c ≠ '/' ∧ c ≠ '#') (after after' : List Char) :
    SameEdge (c :: after) (c :: after') := by
  obtain ⟨hpoint, hslash, hhash⟩ := hc
  refine ⟨rfl, ?_, ?_, ?_⟩
  · simp [opensComment, beq_eq_false_iff_ne.2 hslash]
  · simp [opensFraction, hpoint]
  · simp [opensRawString, hhash]

theorem of_two {c d : Char} (hc : c ≠ '#') (after after' : List Char) :
    SameEdge (c :: d :: after) (c :: d :: after') := by
  refine ⟨rfl, ?_, ?_, ?_⟩
  · simp [opensComment]
  · simp [opensFraction]
  · simp [opensRawString, hc]

theorem of_isMild {after after' : List Char} (h : ∀ c ∈ after.head?, isMild c = true)
    (h' : ∀ c ∈ after'.head?, isMild c = true) {cs : List Char} (hne : cs ≠ []) :
    SameEdge (cs ++ after) (cs ++ after') := by
  have hcomment {rest : List Char} (hrest : ∀ c ∈ rest.head?, isMild c = true) (c : Char) :
      opensComment (c :: rest) = false := by
    cases rest with
    | nil => simp [opensComment]
    | cons d rest =>
      have hd := hrest d rfl
      simp only [isMild, Bool.and_eq_true, bne_iff_ne] at hd
      simp [opensComment, hd]
  have hlast (c : Char) : SameEdge (c :: after) (c :: after') := by
    refine ⟨rfl, by rw [hcomment h, hcomment h'], ?_, ?_⟩
    · cases after' with
      | nil => simp [opensFraction]
      | cons d rest =>
        have hd := h' d rfl
        simp only [isMild, Bool.and_eq_true, Bool.not_eq_true'] at hd
        simp [opensFraction, hd]
    · intro hraw
      by_cases hc : c = '#'
      · cases after' with
        | nil => simp [opensRawString, hc] at hraw
        | cons d rest =>
          have hd := h' d rfl
          simp only [isMild, Bool.and_eq_true, bne_iff_ne] at hd
          simp [opensRawString, hc, hd] at hraw
      · simpa [opensRawString, List.dropWhile_cons, hc] using hraw
  rw [← List.dropLast_append_getLast hne, List.append_assoc, List.append_assoc]
  exact (hlast _).append _

end SameEdge

/-! ### Tokens that are closed -/

theorem closeQuote?_append {cs body rest : List Char} (h : closeQuote? cs = some (body, rest))
    (rest' : List Char) : closeQuote? (body ++ rest') = some (body, rest') := by
  fun_induction closeQuote? cs generalizing body rest with
  | case1 => simp at h
  | case2 => simp at h
  | case3 c cs ih =>
    obtain ⟨⟨b, r⟩, hs, he⟩ := Option.map_eq_some_iff.1 h
    simp only [Prod.mk.injEq] at he
    obtain ⟨rfl, rfl⟩ := he
    simp [closeQuote?, ih hs]
  | case4 cs =>
    simp only [Option.some.injEq, Prod.mk.injEq] at h
    obtain ⟨rfl, rfl⟩ := h
    rfl
  | case5 => simp at h
  | case6 c cs hslash hquote hline ih =>
    obtain ⟨⟨b, r⟩, hs, he⟩ := Option.map_eq_some_iff.1 h
    simp only [Prod.mk.injEq] at he
    obtain ⟨rfl, rfl⟩ := he
    rw [List.cons_append, closeQuote?.eq_6 _ _ hslash hquote hline, ih hs]
    rfl

theorem closeWith?_append {delimiter cs body rest : List Char} (hne : delimiter ≠ [])
    (h : closeWith? delimiter cs = some (body, rest)) (rest' : List Char) :
    closeWith? delimiter (body ++ rest') = some (body, rest') := by
  obtain ⟨⟨b, r⟩, hs, he⟩ := Option.map_eq_some_iff.1 h
  simp only [Prod.mk.injEq] at he
  obtain ⟨rfl, rfl⟩ := he
  rw [closeWith?, List.append_assoc, splitAtFirst?_append hne hs]
  rfl

theorem closeOnLine?_append {delimiter cs body rest : List Char} (hne : delimiter ≠ [])
    (h : closeOnLine? delimiter cs = some (body, rest)) (rest' : List Char) :
    closeOnLine? delimiter (body ++ rest') = some (body, rest') := by
  obtain ⟨⟨b, r⟩, hs, he⟩ := Option.bind_eq_some_iff.1 h
  dsimp only at he
  split at he
  next => simp at he
  next hline =>
    simp only [Option.some.injEq, Prod.mk.injEq] at he
    obtain ⟨rfl, rfl⟩ := he
    rw [closeOnLine?, List.append_assoc, splitAtFirst?_append hne hs]
    exact if_neg hline

theorem ne_nil_of_closeQuote? {cs body rest : List Char}
    (h : closeQuote? cs = some (body, rest)) : body ≠ [] := by
  rintro rfl
  have hcs := append_of_closeQuote? h
  rw [List.nil_append] at hcs
  subst hcs
  fun_cases closeQuote? rest with
  | case1 | case2 | case4 | case5 => simp_all [closeQuote?]
  | case3 => simp [closeQuote?] at h
  | case6 c cs hslash hquote hline =>
    rw [closeQuote?.eq_6 _ _ hslash hquote hline] at h
    simp at h

/-- An empty literal is the only one that could grow, if a quote came after it. -/
theorem closeString?_append {cs body rest rest' : List Char}
    (h : closeString? cs = some (body, rest))
    (hhead : rest'.head? = some '\x22' → rest.head? = some '\x22') :
    closeString? (body ++ rest') = some (body, rest') := by
  have hcs := append_of_closeString? h
  unfold closeString? at h
  split at h
  next cs' =>
    obtain ⟨⟨b, r⟩, hs, he⟩ := Option.map_eq_some_iff.1 h
    simp only [Prod.mk.injEq] at he
    obtain ⟨rfl, rfl⟩ := he
    simp only [List.cons_append, closeString?]
    rw [closeWith?_append (by simp) hs]
    rfl
  next hne =>
    have hdefault : ∀ cs', body ++ rest' = '\x22' :: '\x22' :: cs' → False := by
      intro cs' hquotes
      rcases body with - | ⟨b, - | ⟨b', body⟩⟩
      · exact ne_nil_of_closeQuote? h rfl
      · simp only [List.cons_append, List.nil_append, List.cons.injEq] at hquotes
        obtain ⟨rfl, rfl⟩ := hquotes
        obtain ⟨rest, rfl⟩ := List.head?_eq_some_iff.1 (hhead rfl)
        exact hne rest hcs.symm
      · simp only [List.cons_append, List.cons.injEq] at hquotes
        obtain ⟨rfl, rfl, rfl⟩ := hquotes
        exact hne (body ++ rest) hcs.symm
    rw [closeString?.eq_2 _ hdefault, closeQuote?_append h rest']

theorem closeRawString?_append {hashes cs body rest : List Char}
    (h : closeRawString? ('#' :: hashes) cs = some (body, rest)) (rest' : List Char) :
    closeRawString? ('#' :: hashes) (body ++ rest') = some (body, rest') := by
  have hcs := append_of_closeRawString? h
  unfold closeRawString? at h
  split at h
  next cs' =>
    obtain ⟨⟨b, r⟩, hs, he⟩ := Option.map_eq_some_iff.1 h
    simp only [Prod.mk.injEq] at he
    obtain ⟨rfl, rfl⟩ := he
    simp only [List.cons_append, closeRawString?]
    rw [closeWith?_append (by simp) hs]
    rfl
  next hne =>
    have hclose := closeOnLine?_append (by simp) h rest'
    -- The delimiter is two characters long, so the literal is.
    have hdefault : ∀ cs', body ++ rest' = '\x22' :: '\x22' :: cs' → False := by
      intro cs' hquotes
      obtain ⟨⟨b, r⟩, hs, he⟩ := Option.bind_eq_some_iff.1 h
      dsimp only at he
      split at he
      · simp at he
      simp only [Option.some.injEq, Prod.mk.injEq] at he
      obtain ⟨rfl, rfl⟩ := he
      rcases b with - | ⟨b, - | ⟨b', bs⟩⟩
      · simp at hquotes
      · simp only [List.cons_append, List.nil_append, List.cons.injEq] at hquotes
        exact hne ('#' :: hashes ++ r) (by rw [← hcs, hquotes.1]; simp)
      · simp only [List.cons_append, List.cons.injEq] at hquotes
        exact hne (bs ++ '\x22' :: '#' :: hashes ++ r) (by rw [← hcs, hquotes.1, hquotes.2.1]; simp)
    rw [closeRawString?.eq_2 _ _ hdefault, hclose]

/-! ### Tokens that run on -/

theorem numberTail_append_of_edge {tail after after' : List Char}
    (h : numberTail (tail ++ after) = (tail, after)) (hedge : SameEdge after after') :
    numberTail (tail ++ after') = (tail, after') := by
  induction tail with
  | nil =>
    cases after' with
    | nil => rfl
    | cons c cs' =>
      obtain ⟨cs, rfl⟩ := List.head?_eq_some_iff.1 hedge.head_eq.symm
      have hfraction := hedge.fraction
      simp only [List.nil_append, numberTail, opensFraction] at h hfraction ⊢
      split at h
      · simp at h
      next hstop =>
        simp only [Bool.or_eq_true, not_or] at hstop
        rw [if_neg]
        simp only [Bool.or_eq_true, not_or]
        exact ⟨hstop.1, fun hpoint ↦ hstop.2 (hfraction hpoint)⟩
  | cons c tail ih =>
    have hhead : (tail ++ after').head? = (tail ++ after).head? := by
      simp [List.head?_append, hedge.head_eq]
    rw [List.cons_append, numberTail] at h ⊢
    rw [hhead]
    split at h
    next hgo =>
      simp only [Prod.mk.injEq, List.cons.injEq, true_and] at h
      rw [if_pos hgo, ih (Prod.ext h.1 h.2)]
    next => simp at h

theorem opensComment_cons (c : Char) (cs : List Char) :
    opensComment (c :: cs) = (c == '/' && (cs.head? == some '/' || cs.head? == some '*')) := by
  cases h : cs.head? <;> simp [opensComment, h]

theorem operatorTail_append_of_edge {tail after after' : List Char}
    (h : operatorTail (tail ++ after) = (tail, after)) (hedge : SameEdge after after') :
    operatorTail (tail ++ after') = (tail, after') := by
  induction tail with
  | nil =>
    cases after' with
    | nil => rfl
    | cons c cs' =>
      obtain ⟨cs, rfl⟩ := List.head?_eq_some_iff.1 hedge.head_eq.symm
      have hcomment := hedge.comment_eq
      rw [opensComment_cons, opensComment_cons] at hcomment
      rw [List.nil_append, operatorTail] at h ⊢
      rw [hcomment]
      split at h
      · simp at h
      next hstop => rw [if_neg hstop]
  | cons c tail ih =>
    have hhead : (tail ++ after').head? = (tail ++ after).head? := by
      simp [List.head?_append, hedge.head_eq]
    rw [List.cons_append, operatorTail] at h ⊢
    rw [hhead]
    split at h
    next hgo =>
      simp only [Prod.mk.injEq, List.cons.injEq, true_and] at h
      rw [if_pos hgo, ih (Prod.ext h.1 h.2)]
    next => simp at h

theorem wordTail_eq_iff {tail after : List Char} : wordTail (tail ++ after) = (tail, after) ↔
    (∀ c ∈ tail, isWordPart c = true) ∧ ∀ c ∈ after.head?, isWordPart c = false := by
  constructor
  · intro h
    simp only [wordTail, Prod.mk.injEq] at h
    refine ⟨fun c hc ↦ List.mem_takeWhile_imp (h.1 ▸ hc), fun c hc ↦ ?_⟩
    rw [← h.2] at hc
    have hstop := List.head?_dropWhile_not isWordPart (tail ++ after)
    rw [Option.mem_def.1 hc] at hstop
    simpa using hstop
  · rintro ⟨hall, hstop⟩
    rw [wordTail, List.takeWhile_append_of_pos hall, List.dropWhile_append_of_pos hall]
    cases after with
    | nil => simp
    | cons c cs => simp [hstop c (by simp)]

theorem cutPound_of_not_opensRawString {cs : List Char} (h : opensRawString cs = false) :
    cutPound cs = if cs.head?.any isWordStart then .ok (.poundKeyword, wordTail cs)
      else .ok (.operator, [], cs) := by
  unfold cutPound
  split
  next after hquote => simp [opensRawString, hquote] at h
  next => rfl

/-- What `#` starts: a raw string literal, a directive, or an operator. -/
theorem cases_of_cutPound {kind : TokenKind} {tail after : List Char}
    (h : cutPound (tail ++ after) = .ok (kind, tail, after)) :
    (kind = .stringLiteral ∧ ∃ hashes body, tail = hashes ++ '\x22' :: body ∧
        (∀ d ∈ hashes, (d == '#') = true) ∧
        closeRawString? ('#' :: hashes) (body ++ after) = some (body, after)) ∨
      (kind = .poundKeyword ∧ tail.head?.any isWordStart = true ∧
        wordTail (tail ++ after) = (tail, after)) ∨
      (kind = .operator ∧ tail = [] ∧ opensRawString after = false ∧
        after.head?.any isWordStart = false) := by
  by_cases hraw : opensRawString (tail ++ after) = true
  · unfold cutPound at h
    split at h
    next cs hquote =>
      dsimp only at h
      split at h
      next body rest hclose =>
        simp only [Except.ok.injEq, Prod.mk.injEq] at h
        obtain ⟨rfl, htail, rfl⟩ := h
        refine .inl ⟨rfl, _, body, htail.symm, ?_, ?_⟩
        · exact fun d hd ↦ List.mem_takeWhile_imp (p := (· == '#')) hd
        · rwa [append_of_closeRawString? hclose]
      next => simp at h
    next hquote =>
      obtain ⟨cs, hcs⟩ := List.head?_eq_some_iff.1 (beq_iff_eq.1 hraw)
      exact absurd hcs (hquote cs)
  · rw [Bool.not_eq_true] at hraw
    rw [cutPound_of_not_opensRawString hraw] at h
    split at h
    next hword =>
      simp only [Except.ok.injEq, Prod.mk.injEq] at h
      obtain ⟨rfl, h⟩ := h
      refine .inr (.inl ⟨rfl, ?_, h⟩)
      cases tail with
      | cons d tail => exact hword
      | nil =>
        -- A word that starts here has a first character.
        obtain ⟨-, hstop⟩ := wordTail_eq_iff.1 h
        cases after with
        | nil => exact hword
        | cons d after =>
          have hpart : isWordPart d = true := by
            simp only [List.nil_append, List.head?_cons, Option.any_some, isWordStart,
              Bool.or_eq_true] at hword
            simp only [isWordPart, Bool.or_eq_true]
            exact .inl hword
          simp [hstop d rfl] at hpart
    next hword =>
      simp only [Except.ok.injEq, Prod.mk.injEq] at h
      obtain ⟨rfl, rfl, -⟩ := h
      exact .inr (.inr ⟨rfl, rfl, hraw, by simpa using hword⟩)

/-! ### The rules -/

/-- `Rule c kind tail after`: one of the rules cuts `c :: tail` as a token before `after`. -/
inductive Rule (c : Char) : TokenKind → List Char → List Char → Prop where
  | string {tail after : List Char} (hc : c = '\x22')
      (h : closeString? (tail ++ after) = some (tail, after)) : Rule c .stringLiteral tail after
  | ticked {tail after : List Char} (hc : c = '\x60')
      (h : closeOnLine? ['\x60'] (tail ++ after) = some (tail, after)) :
      Rule c .identifier tail after
  | word {tail after : List Char} (hc : (c = '$' || isWordStart c) = true)
      (h : wordTail (tail ++ after) = (tail, after)) : Rule c (wordKind (c :: tail)) tail after
  | number {tail after : List Char} (hword : (c = '$' || isWordStart c) = false)
      (hc : c.isDigit = true) (h : numberTail (tail ++ after) = (tail, after)) :
      Rule c .numberLiteral tail after
  | rawString {hashes body after : List Char} (hc : c = '#')
      (hhashes : ∀ d ∈ hashes, (d == '#') = true)
      (h : closeRawString? ('#' :: hashes) (body ++ after) = some (body, after)) :
      Rule c .stringLiteral (hashes ++ '\x22' :: body) after
  | directive {tail after : List Char} (hc : c = '#')
      (hword : tail.head?.any isWordStart = true) (h : wordTail (tail ++ after) = (tail, after)) :
      Rule c .poundKeyword tail after
  | hash {after : List Char} (hc : c = '#') (hraw : opensRawString after = false)
      (hword : after.head?.any isWordStart = false) : Rule c .operator [] after
  | punctuation {kind : TokenKind} {after : List Char} (hc : punctuation? c = some kind) :
      Rule c kind [] after
  | operator {tail after : List Char} (hc : isOperatorChar c = true)
      (h : operatorTail (tail ++ after) = (tail, after)) :
      Rule c (operatorKind (c :: tail)) tail after

theorem rule_of_cut {c : Char} {kind : TokenKind} {tail after : List Char}
    (h : cut c (tail ++ after) = .ok (kind, tail, after)) : Rule c kind tail after := by
  unfold cut at h
  split at h
  next hc =>
    split at h
    next body rest hclose =>
      simp only [Except.ok.injEq, Prod.mk.injEq] at h
      obtain ⟨rfl, rfl, rfl⟩ := h
      exact .string hc hclose
    next => simp at h
  split at h
  next hc =>
    split at h
    next body rest hclose =>
      simp only [Except.ok.injEq, Prod.mk.injEq] at h
      obtain ⟨rfl, rfl, rfl⟩ := h
      exact .ticked hc hclose
    next => simp at h
  split at h
  next hc =>
    simp only [Except.ok.injEq, Prod.mk.injEq] at h
    obtain ⟨rfl, htail, hafter⟩ := h
    rw [htail]
    exact .word hc (Prod.ext htail hafter)
  next hword =>
  split at h
  next hc =>
    simp only [Except.ok.injEq, Prod.mk.injEq] at h
    obtain ⟨rfl, h⟩ := h
    exact .number (by simpa using hword) hc h
  split at h
  next hc =>
    obtain ⟨rfl, hashes, body, rfl, hhashes, h⟩ | ⟨rfl, hword, h⟩ | ⟨rfl, rfl, hraw, hword⟩ :=
      cases_of_cutPound h
    · exact .rawString hc hhashes h
    · exact .directive hc hword h
    · exact .hash hc hraw hword
  split at h
  next kind' hc =>
    simp only [Except.ok.injEq, Prod.mk.injEq] at h
    obtain ⟨rfl, rfl, -⟩ := h
    exact .punctuation hc
  split at h
  next hc =>
    simp only [Except.ok.injEq, Prod.mk.injEq] at h
    obtain ⟨rfl, htail, hafter⟩ := h
    rw [htail]
    exact .operator hc (Prod.ext htail hafter)
  next => simp at h

/-- No two rules start with the same character. -/
theorem class_of_punctuation? {c : Char} {kind : TokenKind} (h : punctuation? c = some kind) :
    c ≠ '\x22' ∧ c ≠ '\x60' ∧ (c = '$' || isWordStart c) = false ∧ c.isDigit = false ∧ c ≠ '#' := by
  fun_cases punctuation? c with
  | case12 => simp_all [punctuation?]
  | _ => decide

theorem class_of_isOperatorChar {c : Char} (h : isOperatorChar c = true) :
    c ≠ '\x22' ∧ c ≠ '\x60' ∧ (c = '$' || isWordStart c) = false ∧ c.isDigit = false ∧ c ≠ '#' ∧
      punctuation? c = none := by
  have hmem : c ∈ "/=-+!*%<>&|^~?".toList := by simpa [isOperatorChar] using h
  have hall : ("/=-+!*%<>&|^~?".toList.all fun d ↦ decide (d ≠ '\x22' ∧ d ≠ '\x60' ∧
      (d = '$' || isWordStart d) = false ∧ d.isDigit = false ∧ d ≠ '#' ∧
        punctuation? d = none)) = true := by
    decide
  exact of_decide_eq_true (List.all_eq_true.1 hall c hmem)

theorem cut_pound (cs : List Char) : cut '#' cs = cutPound cs := by
  rw [cut, if_neg (by decide), if_neg (by decide), if_neg (by decide), if_neg (by decide),
    if_pos rfl]

theorem cut_of_rule {c : Char} {kind : TokenKind} {tail after : List Char}
    (h : Rule c kind tail after) : cut c (tail ++ after) = .ok (kind, tail, after) := by
  cases h with
  | string hc h => simp [cut, hc, h]
  | ticked hc h => simp [cut, hc, h]
  | word hc h =>
    have hne : c ≠ '\x22' ∧ c ≠ '\x60' := by
      refine ⟨?_, ?_⟩ <;> rintro rfl <;> revert hc <;> decide
    rw [cut, if_neg hne.1, if_neg hne.2, if_pos hc, h]
  | number hword hc h =>
    have hne : c ≠ '\x22' ∧ c ≠ '\x60' := by
      refine ⟨?_, ?_⟩ <;> rintro rfl <;> revert hc <;> decide
    rw [cut, if_neg hne.1, if_neg hne.2, if_neg (by simp [hword]), if_pos hc, h]
  | @rawString hashes body _ hc hhashes h =>
    have htake : (hashes ++ '\x22' :: body ++ after).takeWhile (· == '#') = hashes := by
      rw [List.append_assoc, List.takeWhile_append_of_pos hhashes]
      simp
    have hdrop : (hashes ++ '\x22' :: body ++ after).dropWhile (· == '#') =
        '\x22' :: (body ++ after) := by
      rw [List.append_assoc, List.dropWhile_append_of_pos hhashes]
      simp
    rw [hc, cut_pound, cutPound, htake, hdrop]
    simp only [h]
  | directive hc hword h =>
    have hraw : opensRawString (tail ++ after) = false := by
      cases tail with
      | nil => simp at hword
      | cons d tail =>
        have hstart : isWordStart d = true := hword
        have hne : d ≠ '#' ∧ d ≠ '\x22' := by
          refine ⟨?_, ?_⟩ <;> rintro rfl <;> revert hstart <;> decide
        simp [opensRawString, hne]
    have hhead : (tail ++ after).head?.any isWordStart = true := by
      cases tail with
      | nil => simp at hword
      | cons d tail => exact hword
    rw [hc, cut_pound, cutPound_of_not_opensRawString hraw, if_pos hhead, h]
  | hash hc hraw hword =>
    rw [hc, cut_pound, List.nil_append, cutPound_of_not_opensRawString hraw,
      if_neg (by simp [hword])]
  | punctuation hc =>
    obtain ⟨h₁, h₂, h₃, h₄, h₅⟩ := class_of_punctuation? hc
    rw [cut, if_neg h₁, if_neg h₂, if_neg (by simp [h₃]), if_neg (by simp [h₄]), if_neg h₅, hc]
    rfl
  | operator hc h =>
    obtain ⟨h₁, h₂, h₃, h₄, h₅, h₆⟩ := class_of_isOperatorChar hc
    rw [cut, if_neg h₁, if_neg h₂, if_neg (by simp [h₃]), if_neg (by simp [h₄]), if_neg h₅, h₆]
    simp only [hc, if_true, h]

/-- Cutting a token does not depend on more than the edge of what follows. -/
theorem Rule.of_edge {c : Char} {kind : TokenKind} {tail after after' : List Char}
    (h : Rule c kind tail after) (hedge : SameEdge after after') : Rule c kind tail after' := by
  cases h with
  | string hc h => exact .string hc (closeString?_append h (hedge.head_eq ▸ id))
  | ticked hc h => exact .ticked hc (closeOnLine?_append (by simp) h after')
  | word hc h =>
    obtain ⟨hall, hstop⟩ := wordTail_eq_iff.1 h
    exact .word hc (wordTail_eq_iff.2 ⟨hall, fun d hd ↦ hstop d (hedge.head_eq ▸ hd)⟩)
  | number hword hc h => exact .number hword hc (numberTail_append_of_edge h hedge)
  | rawString hc hhashes h => exact .rawString hc hhashes (closeRawString?_append h after')
  | directive hc hword h =>
    obtain ⟨hall, hstop⟩ := wordTail_eq_iff.1 h
    exact .directive hc hword (wordTail_eq_iff.2 ⟨hall, fun d hd ↦ hstop d (hedge.head_eq ▸ hd)⟩)
  | hash hc hraw hword =>
    refine .hash hc ?_ (by rw [hedge.head_eq, hword])
    by_contra hopen
    rw [hedge.rawString (by simpa using hopen)] at hraw
    simp at hraw
  | punctuation hc => exact .punctuation hc
  | operator hc h => exact .operator hc (operatorTail_append_of_edge h hedge)

end EnumForge.Lexeme
