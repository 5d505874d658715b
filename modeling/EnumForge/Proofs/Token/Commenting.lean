import EnumForge.Proofs.Token.Exchange
import EnumForge.Proofs.Token.Made

/-!
# Tokens that become a comment

The tokens on the rest of a line may become a line comment.  The comment falls to the trivia that
is left around it, on the side of the next line break that it stands on, and the tokens around it
stay as they are.
-/

namespace EnumForge

open Lexeme
open Trivia (Gap chars commentBody endsLine)

namespace Trivia

/-- A comment is all of its line if the line has no carriage return. -/
theorem commentBody_of_line {body rest : List Char} (hbody : ∀ c ∈ body, c ≠ '\n' ∧ c ≠ '\r')
    (hline : endsLine rest = true) : commentBody (body ++ rest) = body := by
  have htake : body.takeWhile (· != '\n') = body :=
    List.takeWhile_eq_self_iff.2 fun c hc ↦ by simpa using (hbody c hc).1
  have hdrop : body.reverse.dropWhile (· == '\r') = body.reverse :=
    List.dropWhile_eq_self_iff.2 fun hpos ↦ by
      simpa using (hbody _ (List.mem_reverse.1 (List.getElem_mem hpos))).2
  have hwhole : commentBody (body ++ []) = body := by
    rw [List.append_nil, commentBody, htake, Text.trimEnd, hdrop, List.reverse_reverse]
  exact commentBody_of_endsLine hwhole hline

/-- The pieces of a comment with `body` and of the trivia `ps` on the lines after it. -/
def behindComment (body : List Char) (ps : List TriviaPiece) : List TriviaPiece :=
  .lineComment (String.ofList ('/' :: '/' :: body)) :: ps

theorem chars_behindComment (body : List Char) (ps : List TriviaPiece) :
    chars (behindComment body ps) = '/' :: '/' :: body ++ chars ps := by
  simp [behindComment, TriviaPiece.text]

theorem Gap.behindComment {body : List Char} {ps : List TriviaPiece} {after : List Char}
    (hbody : ∀ c ∈ body, c ≠ '\n' ∧ c ≠ '\r') (hline : endsLine (chars ps) = true)
    (h : Gap false ps after) : Gap false (behindComment body ps) after :=
  .lineComment (commentBody_of_line hbody (endsLine_append hline after)) h

end Trivia

namespace Token

/-- A word or a closing bracket ends before a slash, and it alone decides what a token before it
sees. -/
theorem CutBefore.plain {t : Token} {after : List Char} (h : t.CutBefore after)
    (hkind : t.kind = .identifier ∨ t.kind = .keyword ∨ t.kind.closes = true) :
    t.continues '/' = false ∧
      ∃ c tail, t.text.toList = c :: tail ∧ c ≠ '.' ∧ c ≠ '/' ∧ c ≠ '#' := by
  constructor
  · have hslash : Text.isWordPart '/' = false := by decide
    unfold continues
    split <;> simp_all [TokenKind.closes]
  · obtain ⟨c, tail, htext, hrule⟩ := h
    refine ⟨c, tail, htext, ?_⟩
    generalize t.kind = kind at hrule hkind
    cases hrule with
    | string | number | rawString | directive | hash => simp [TokenKind.closes] at hkind
    | ticked hc => subst hc; decide
    | word hc => refine ⟨?_, ?_, ?_⟩ <;> rintro rfl <;> revert hc <;> decide
    | punctuation hc =>
      refine plain_of_punctuation? hc ?_
      rintro rfl
      simp [TokenKind.closes] at hkind
    | operator =>
      unfold operatorKind at hkind
      split at hkind
      · simp [TokenKind.closes] at hkind
      split at hkind <;> simp [TokenKind.closes] at hkind

section

variable {n : Token} {ns : List Token} {body : List Char} (hn : Ready (n :: ns))
  (hline : endsLine n.leading.text.toList = true) (hbody : ∀ c ∈ body, c ≠ '\n' ∧ c ≠ '\r')
include hn hline hbody

/-- A comment takes the place of the tokens between `p` and the next line. -/
theorem exists_inStep_comment {p x : Token} {xs : List Token}
    (hp : p.kind = .identifier ∨ p.kind = .keyword ∨ p.kind.closes = true)
    (hspelled : Spelled (p :: x :: xs)) (hx : bodyChars (x :: xs) ≠ []) :
    ∃ trailing leading : Trivia,
      InStep (p :: x :: xs) (p.withTrailing trailing :: n.withLeading leading :: ns) ∧
      trailing.text.toList ++ leading.text.toList = p.trailing.text.toList ++
        (x.leading.text.toList ++ ('/' :: '/' :: body ++ n.leading.text.toList)) := by
  obtain ⟨hcut, ⟨ps, hps, hgap⟩, ⟨qs, hqs, hgap'⟩, -⟩ := hspelled
  obtain ⟨hcontinues, c, tail, htext, hplain⟩ := hcut.plain hp
  rw [listChars_eq_bodyChars, hqs, Trivia.toList_text_ofPieces] at hgap hcut
  rw [hps, Trivia.toList_text_ofPieces, ← List.append_assoc, ← Trivia.chars_append] at hcut
  have hjoin := hgap.join hgap'
  obtain ⟨hns, ⟨rs, hrs, hgapn⟩, -⟩ := hn
  rw [hrs, Trivia.toList_text_ofPieces] at hline ⊢
  -- The comment stands in one gap with all the trivia around it, which has to be divided anew.
  have hall := hjoin.append hx (hgapn.behindComment hbody hline)
  obtain ⟨us, vs, hsplit, hus, hvs⟩ := hall.divide
  have hchars : chars us ++ chars vs = chars (ps ++ qs) ++ ('/' :: '/' :: body ++ chars rs) := by
    rw [← Trivia.chars_append, ← hsplit, Trivia.chars_append, Trivia.chars_behindComment]
  refine ⟨.ofPieces us, .ofPieces vs, ⟨⟨?_, ⟨us, rfl, ?_⟩, ⟨vs, rfl, hvs⟩, ?_⟩, ?_⟩, ?_⟩
  · show p.CutBefore ((Trivia.ofPieces us).text.toList ++ listChars (n.withLeading _ :: ns))
    rw [listChars_eq_bodyChars]
    show p.CutBefore ((Trivia.ofPieces us).text.toList ++
      ((Trivia.ofPieces vs).text.toList ++ bodyChars (n :: ns)))
    rw [Trivia.toList_text_ofPieces, Trivia.toList_text_ofPieces, ← List.append_assoc, hchars,
      List.append_assoc]
    by_cases hnil : ps ++ qs = []
    · rw [hnil] at hcut ⊢
      exact hcut.of_not_continues (by decide) hcontinues _
    · exact hcut.of_edge (.of_gap hjoin hnil _ _)
  · rw [listChars_eq_bodyChars]
    show Gap true us ((Trivia.ofPieces vs).text.toList ++ bodyChars (n :: ns))
    rwa [Trivia.toList_text_ofPieces]
  · rwa [spelled_withLeading]
  · rw [bodyChars, bodyChars]
    show SameEdge (p.text.toList ++ _) (p.text.toList ++ _)
    rw [htext]
    exact .of_plain hplain _ _
  · rw [Trivia.toList_text_ofPieces, Trivia.toList_text_ofPieces, hchars, hps, hqs,
      Trivia.toList_text_ofPieces, Trivia.toList_text_ofPieces, Trivia.chars_append,
      List.append_assoc]

/-- A comment is the first line of a text. -/
theorem exists_startsFile_comment : ∃ leading : Trivia,
    TokenStream.StartsFile leading (bodyChars (n :: ns)) ∧
      leading.text.toList = '/' :: '/' :: body ++ n.leading.text.toList := by
  obtain ⟨-, ⟨rs, hrs, hgap⟩, -⟩ := hn
  rw [hrs, Trivia.toList_text_ofPieces] at hline ⊢
  refine ⟨.ofPieces (Trivia.behindComment body rs),
    ⟨_, hgap.behindComment hbody hline, .inl ⟨rfl, ?_⟩⟩, ?_⟩
  · simp [Trivia.chars_behindComment]
  · rw [Trivia.toList_text_ofPieces, Trivia.chars_behindComment]

end

end Token

end EnumForge
