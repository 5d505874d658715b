import EnumForge.Trivia
import Mathlib.Data.List.DropRight

/-!
# Indentation

Line breaks followed by an indentation are read back as that indentation, which is made of spaces
and tabs only.
-/

namespace EnumForge

/-- Whether the character may stand in an indentation. -/
def Trivia.isIndentChar (c : Char) : Bool := c == ' ' || c == '\t'

namespace TriviaPiece

theorem isIndentChar_of_mem_text {p : TriviaPiece} (hp : p.isIndent = true) :
    ∀ c ∈ p.text.toList, Trivia.isIndentChar c = true := by
  intro c hc
  cases p with
  | spaces n =>
    have heq : c = ' ' := by simpa [text] using (List.mem_replicate.1 (by simpa [text] using hc)).2
    simp [Trivia.isIndentChar, heq]
  | tabs n =>
    have heq : c = '\t' := by simpa [text] using (List.mem_replicate.1 (by simpa [text] using hc)).2
    simp [Trivia.isIndentChar, heq]
  | newlines | carriageReturns | lineComment | blockComment | byteOrderMark =>
    simp [isIndent] at hp

theorem isNewline_of_isIndent {p : TriviaPiece} (hp : p.isIndent = true) :
    p.isNewline = false := by
  cases p <;> simp_all [isIndent, isNewline]

end TriviaPiece

namespace Trivia

/-- Line breaks followed by blanks only. -/
structure Breaks (t : Trivia) (n : Nat) (blanks : List TriviaPiece) : Prop where
  pieces : t.pieces = .newlines n :: blanks
  isIndent : ∀ p ∈ blanks, p.isIndent = true

theorem isIndent_pushPiece {p : TriviaPiece} (hp : p.isIndent = true) {ps : List TriviaPiece}
    (hps : ∀ q ∈ ps, q.isIndent = true) : ∀ q ∈ pushPiece p ps, q.isIndent = true := by
  fun_induction pushPiece p ps with
  | case1 => simpa using hp
  | case2 q merged h =>
    have hq := hps q (by simp)
    cases q <;> cases p <;> simp_all [TriviaPiece.merge?, TriviaPiece.isIndent] <;> simp [← h]
  | case3 q h => simp [hp, hps q (by simp)]
  | case4 q r ps ih =>
    simp only [List.forall_mem_cons] at hps ih ⊢
    exact ⟨hps.1, ih hps.2⟩

theorem pushPiece_cons {p q : TriviaPiece} (h : q.merge? p = none) (ps : List TriviaPiece) :
    pushPiece p (q :: ps) = q :: pushPiece p ps := by
  cases ps with
  | nil => simp [pushPiece, h]
  | cons r ps => rfl

theorem Breaks.push {t : Trivia} {n : Nat} {blanks : List TriviaPiece} (h : t.Breaks n blanks)
    {p : TriviaPiece} (hp : p.isIndent = true) : (t.push p).Breaks n (pushPiece p blanks) := by
  refine ⟨?_, isIndent_pushPiece hp h.isIndent⟩
  have hmerge : (TriviaPiece.newlines n).merge? p = none := by
    cases p <;> simp_all [TriviaPiece.merge?, TriviaPiece.isIndent]
  simp only [Trivia.push, h.pieces, pushPiece_cons hmerge]

theorem exists_breaks_foldl (cs : List Char) {t : Trivia} {n : Nat} {blanks : List TriviaPiece}
    (h : t.Breaks n blanks) :
    ∃ blanks', (cs.foldl pushBlank t).Breaks n blanks' ∧
      (Trivia.mk blanks').text.toList =
        (Trivia.mk blanks).text.toList ++ cs.filter isIndentChar := by
  induction cs generalizing t blanks with
  | nil => exact ⟨blanks, h, by simp⟩
  | cons c cs ih =>
    rw [List.foldl_cons]
    by_cases hspace : c = ' '
    · subst hspace
      obtain ⟨blanks', hbreaks, htext⟩ := ih (h.push (p := .spaces 1) rfl)
      refine ⟨blanks', hbreaks, htext.trans ?_⟩
      have hpush := congrArg String.toList ((Trivia.mk blanks).text_push (.spaces 1))
      simp only [Trivia.push, String.toList_append] at hpush
      rw [hpush]
      simp [isIndentChar, TriviaPiece.text]
    by_cases htab : c = '\t'
    · subst htab
      obtain ⟨blanks', hbreaks, htext⟩ := ih (h.push (p := .tabs 1) rfl)
      refine ⟨blanks', hbreaks, htext.trans ?_⟩
      have hpush := congrArg String.toList ((Trivia.mk blanks).text_push (.tabs 1))
      simp only [Trivia.push, String.toList_append] at hpush
      rw [hpush]
      simp [isIndentChar, TriviaPiece.text]
    · have hskip : t.pushBlank c = t := by
        unfold pushBlank
        split <;> simp_all
      rw [hskip]
      obtain ⟨blanks', hbreaks, htext⟩ := ih h
      exact ⟨blanks', hbreaks, by simp [htext, isIndentChar, hspace, htab]⟩

theorem exists_breaks_newlinesIndent (n : Nat) (indent : String) :
    ∃ blanks, (newlinesIndent n indent).Breaks n blanks ∧
      (Trivia.mk blanks).text.toList = indent.toList.filter isIndentChar := by
  have hstart : (newlines n).Breaks n [] := ⟨rfl, by simp⟩
  obtain ⟨blanks, hbreaks, htext⟩ := exists_breaks_foldl indent.toList hstart
  exact ⟨blanks, hbreaks, by simpa [text] using htext⟩

theorem hasNewline_newlinesIndent (n : Nat) (indent : String) :
    (newlinesIndent n indent).hasNewline = true := by
  obtain ⟨blanks, hbreaks, -⟩ := exists_breaks_newlinesIndent n indent
  simp [hasNewline, hbreaks.pieces, TriviaPiece.isNewline]

/-- An indentation is found again behind the line breaks. -/
theorem indentation_newlinesIndent (n : Nat) (indent : String) :
    (newlinesIndent n indent).indentation =
      some (String.ofList (indent.toList.filter isIndentChar)) := by
  obtain ⟨blanks, hbreaks, htext⟩ := exists_breaks_newlinesIndent n indent
  have hline : ∀ p ∈ blanks.reverse, (!p.isNewline) = true := by
    intro p hp
    simp [TriviaPiece.isNewline_of_isIndent (hbreaks.isIndent p (List.mem_reverse.1 hp))]
  have hlast : ((newlinesIndent n indent).pieces.reverse.takeWhile fun p ↦ !p.isNewline) =
      blanks.reverse := by
    rw [hbreaks.pieces, List.reverse_cons, List.takeWhile_append_of_pos hline]
    simp [TriviaPiece.isNewline]
  rw [indentation, if_pos (hasNewline_newlinesIndent n indent)]
  dsimp only
  rw [hlast, List.reverse_reverse, List.takeWhile_eq_self_iff.2 hbreaks.isIndent, ← htext,
    String.ofList_toList]
  rfl

/-- Line breaks and an indentation are printed one after the other. -/
theorem text_newlinesIndent (n : Nat) {indent : String}
    (hindent : ∀ c ∈ indent.toList, isIndentChar c = true) :
    (newlinesIndent n indent).text = String.ofList (List.replicate n '\n') ++ indent := by
  obtain ⟨blanks, hbreaks, htext⟩ := exists_breaks_newlinesIndent n indent
  rw [List.filter_eq_self.2 hindent] at htext
  have hblanks : String.join (blanks.map TriviaPiece.text) = indent := String.toList_inj.1 htext
  rw [text, hbreaks.pieces, List.map_cons, String.join_cons, hblanks]
  rfl

theorem isIndentChar_of_indentation {t : Trivia} {indent : String}
    (h : t.indentation = some indent) : ∀ c ∈ indent.toList, isIndentChar c = true := by
  unfold indentation at h
  split at h
  · simp only [Option.some.injEq] at h
    subst h
    intro c hc
    rw [String.toList_join, List.mem_flatMap] at hc
    obtain ⟨text, htext, hc⟩ := hc
    obtain ⟨p, hp, rfl⟩ := List.mem_map.1 htext
    exact TriviaPiece.isIndentChar_of_mem_text (List.mem_takeWhile_imp hp) c hc
  · simp at h

/-- Blanks are trimmed once. -/
theorem trimmed_trimmed (t : Trivia) : t.trimmed.trimmed = t.trimmed := by
  simp only [trimmed, List.reverse_reverse, List.dropWhile_idempotent]

end Trivia

end EnumForge
