import EnumForge.Proofs.Token.Splice
import EnumForge.Proofs.Trivia.Merging

/-!
# Tokens before other tokens

A token that was cut before one token is cut the same before any other one that starts softly, as
long as it does not run into it.  The blanks after it may be left out before the end of a line.
-/

namespace EnumForge

open Trivia (Gap chars opensComment endsLine)

namespace Lexeme

theorem opensRawString_of_mild {cs after after' : List Char}
    (hmild : ∀ c ∈ after'.head?, isMild c = true) (h : opensRawString (cs ++ after') = true) :
    opensRawString (cs ++ after) = true := by
  induction cs with
  | nil =>
    cases after' with
    | nil => simp [opensRawString] at h
    | cons d rest =>
      have hd := hmild d rfl
      simp only [isMild, Bool.and_eq_true, bne_iff_ne] at hd
      simp [opensRawString, hd] at h
  | cons c cs ih =>
    by_cases hc : c = '#'
    · subst hc
      have hrun (rest : List Char) : opensRawString ('#' :: rest) = opensRawString rest := by
        simp [opensRawString]
      rw [List.cons_append, hrun] at h ⊢
      exact ih h
    · simpa [opensRawString, List.dropWhile_cons, hc] using h

/-- Behind a text that opens no comment, mild characters change nothing. -/
theorem SameEdge.of_mild {cs after after' : List Char} (hne : cs ≠ [])
    (hcomment : opensComment (cs ++ after) = false)
    (hmild : ∀ c ∈ after'.head?, isMild c = true) : SameEdge (cs ++ after) (cs ++ after') := by
  have hraw : opensRawString (cs ++ after') = true → opensRawString (cs ++ after) = true :=
    opensRawString_of_mild hmild
  match cs, hne with
  | [c], _ =>
    cases after' with
    | nil => exact ⟨rfl, by rw [hcomment]; simp [opensComment], by simp [opensFraction], hraw⟩
    | cons d rest =>
      have hd := hmild d rfl
      simp only [isMild, Bool.and_eq_true, bne_iff_ne, Bool.not_eq_true'] at hd
      exact ⟨rfl, by rw [hcomment]; simp [opensComment, hd], by simp [opensFraction, hd], hraw⟩
  | c :: d :: cs, _ =>
    exact ⟨rfl, by simp [opensComment], by simp [opensFraction], hraw⟩

end Lexeme

open Lexeme (SameEdge)

namespace Token

theorem Ready.opensComment_eq {z : Token} {zs : List Token} (h : Ready (z :: zs)) :
    opensComment (bodyChars (z :: zs)) = false := by
  obtain ⟨-, ⟨qs, -, hgap⟩, -⟩ := h
  have hstops := hgap.stops_after
  cases hbody : bodyChars (z :: zs) with
  | nil => rfl
  | cons c cs =>
    simp only [hbody, Trivia.stops, Bool.and_eq_true, Bool.not_eq_true'] at hstops
    exact hstops.2

/-- Another token that starts softly comes to stand behind a token. -/
theorem InStep.exchange {z o n : Token} {os ns : List Token} (hz : Ready (z :: o :: os))
    (hn : Ready (n :: ns)) (hsoft : n.StartsSoft) (hrun : z.runsInto n = false) :
    InStep (z :: o :: os) (z :: n :: ns) := by
  have hsound : z.Sound := .of_spelled hz.1
  refine ⟨hsound.spelled_cons hn hrun (.inr hsoft.startsApart), ?_⟩
  obtain ⟨-, ⟨d, tail, htext, -⟩, -⟩ := hsound
  have hne : z.text.toList ++ z.trailing.text.toList ≠ [] := by simp [htext]
  have hcomment := hz.opensComment_eq
  rw [bodyChars, ← List.append_assoc] at hcomment
  have hedge := SameEdge.of_mild hne hcomment (hsoft.isMild hn)
  rwa [List.append_assoc, List.append_assoc] at hedge

theorem Ready.spelled {ts : List Token} (h : Ready ts) : Spelled ts := by
  cases ts with
  | nil => exact h.elim
  | cons t ts => exact h.1

/-- A step behind a run of tokens leaves the run as it is. -/
theorem Ready.append_step {ts : List Token} {b c : Token} {bs cs : List Token}
    (h : Ready (ts ++ b :: bs)) (hstep : InStep (b :: bs) (c :: cs))
    (hleading : c.leading = b.leading) : Ready (ts ++ c :: cs) := by
  cases ts with
  | nil => exact (StandsFor.inStep hstep hleading).ready h
  | cons t ts => exact (StandsFor.inStep (hstep.append hleading h.spelled) rfl).ready h

theorem Ready.of_append {ts : List Token} {b : Token} {bs : List Token}
    (h : Ready (ts ++ b :: bs)) : Ready (b :: bs) := by
  cases ts with
  | nil => exact h
  | cons t ts => exact ready_of_append h.spelled (by simp) (by simp)

/-! ### Without blanks at the end of a line -/

end Token

namespace Trivia

theorem trimmed_push (t : Trivia) (p : TriviaPiece) :
    (t.push p).trimmed = if p.isBlank then t.trimmed else t.push p := by
  obtain ⟨ps⟩ := t
  rcases pushPiece_eq p ps with h | ⟨init, q, merged, rfl, hmerge, h⟩
  · simp only [push, trimmed, h, List.reverse_append, List.reverse_cons, List.reverse_nil,
      List.nil_append, List.cons_append, List.dropWhile_cons]
    split <;> simp
  · obtain ⟨hmerged, hq⟩ := TriviaPiece.isBlank_of_merge? hmerge
    simp only [push, trimmed, h, List.reverse_append, List.reverse_cons, List.reverse_nil,
      List.nil_append, List.cons_append, List.dropWhile_cons, hmerged, hq]
    split <;> simp

/-- Trimming leaves out pieces at the end. -/
theorem trimmed_ofPieces (ps : List TriviaPiece) :
    ∃ qs rs, ps = qs ++ rs ∧ (ofPieces ps).trimmed = ofPieces qs := by
  induction ps using List.reverseRecOn with
  | nil => exact ⟨[], [], rfl, rfl⟩
  | append_singleton ps p ih =>
    rw [ofPieces_concat, trimmed_push]
    split
    · obtain ⟨qs, rs, rfl, heq⟩ := ih
      exact ⟨qs, rs ++ [p], by simp, heq⟩
    · exact ⟨ps ++ [p], [], by simp, (ofPieces_concat ps p).symm⟩

theorem stops_of_endsLine {cs : List Char} (h : endsLine cs = true) : stops true cs = true := by
  obtain ⟨n, rest, rfl⟩ := exists_of_endsLine h
  cases n <;> simp [stops, opensComment, List.replicate_succ]

theorem endsLine_append {cs : List Char} (h : endsLine cs = true) (rest : List Char) :
    endsLine (cs ++ rest) = true := by
  obtain ⟨n, after, rfl⟩ := exists_of_endsLine h
  rw [endsLine, List.append_assoc, List.dropWhile_append_of_pos]
  · simp
  · intro c hc
    simp [List.eq_of_mem_replicate hc]

/-- The first pieces of the trivia after a token, before the end of a line. -/
theorem Gap.take {qs rs : List TriviaPiece} {after after' : List Char}
    (h : Gap true (qs ++ rs) after) (hline : endsLine after' = true) : Gap true qs after' := by
  induction qs with
  | nil => exact .stop (stops_of_endsLine hline)
  | cons q qs ih =>
    cases h with
    | blank hp h => exact .blank hp (ih h)
    | lineBreak _ hfalse _ => simp at hfalse
    | lineComment hbody h =>
      have hnil := h.eq_nil_of_commentBody hbody
      obtain ⟨rfl, rfl⟩ := List.append_eq_nil_iff.1 hnil
      exact .lineComment (commentBody_of_endsLine hbody hline) (ih h)
    | blockComment hbody h => exact .blockComment (splitAtFirst?_block hbody _) (ih h)

end Trivia

namespace Token

/-- A token before the end of its line does without the blanks behind it. -/
theorem InStep.trim {z o n : Token} {os ns : List Token} (hz : Ready (z :: o :: os))
    (hn : Ready (n :: ns)) (hline : endsLine n.leading.text.toList = true) :
    InStep (z :: o :: os) (z.withTrailing z.trailing.trimmed :: n :: ns) := by
  have hcomment := hz.opensComment_eq
  obtain ⟨hcut, ⟨ps, hps, hgap⟩, -, -⟩ := hz.1
  obtain ⟨qs, rs, rfl, htrimmed⟩ := Trivia.trimmed_ofPieces ps
  rw [← hps] at htrimmed
  have hends : endsLine (listChars (n :: ns)) = true := by
    rw [listChars_eq_bodyChars]
    exact Trivia.endsLine_append hline _
  have hgap' := hgap.take hends
  have htext : z.trailing.text.toList = chars qs ++ chars rs := by
    rw [hps, Trivia.toList_text_ofPieces, Trivia.chars_append]
  have htext' : z.trailing.trimmed.text.toList = chars qs := by
    rw [htrimmed, Trivia.toList_text_ofPieces]
  obtain ⟨c, cs, hlist, hc⟩ : ∃ c cs, listChars (n :: ns) = c :: cs ∧ (c = '\n' ∨ c = '\r') := by
    obtain ⟨k, rest, hk⟩ := Trivia.exists_of_endsLine hends
    rw [hk]
    cases k with
    | zero => exact ⟨_, _, rfl, .inl rfl⟩
    | succ k => exact ⟨_, _, rfl, .inr rfl⟩
  have hmild : ∀ d ∈ (listChars (n :: ns)).head?, Lexeme.isMild d = true := by
    rw [hlist]
    rintro d ⟨⟩
    rcases hc with rfl | rfl <;> decide
  refine ⟨⟨?_, ⟨qs, htrimmed, hgap'⟩, hn.2.1, hn.1⟩, ?_⟩
  · show z.CutBefore (z.trailing.trimmed.text.toList ++ listChars (n :: ns))
    rw [htext']
    -- With no trivia left the token stands right before the line break.
    by_cases hqs : qs = []
    · rw [hqs, Trivia.chars_nil, List.nil_append, hlist]
      exact hcut.of_isWhite (by rcases hc with rfl | rfl <;> rfl) cs
    · rw [htext, List.append_assoc] at hcut
      exact hcut.of_edge (SameEdge.of_gap hgap' hqs _ _)
  · show SameEdge _ (z.text.toList ++ (z.trailing.trimmed.text.toList ++ listChars (n :: ns)))
    obtain ⟨d, tail, hz, -⟩ := hcut
    have hne : z.text.toList ++ chars qs ≠ [] := by simp [hz]
    rw [bodyChars, htext, List.append_assoc, ← List.append_assoc z.text.toList] at hcomment
    have hedge := SameEdge.of_mild hne hcomment hmild
    rwa [List.append_assoc, List.append_assoc, ← List.append_assoc (chars qs), ← htext,
      ← htext'] at hedge

end Token

end EnumForge
