import EnumForge.Proofs.Token.Exchange
import EnumForge.Proofs.Trivia.Indent

/-!
# Tokens with whitespace between them

A token that was cut from some text is cut the same before any whitespace.  So the tokens of a
source can be written down anew, each followed by whitespace of any kind, and are read back with
the same kinds and texts.
-/

namespace EnumForge

open Lexeme (SameEdge)
open Trivia (Gap chars stops isWhite isIndentChar)

/-! ### Whitespace as trivia -/

namespace Trivia

/-- Whitespace only. -/
def AllWhite (gap : String) : Prop := ∀ c ∈ gap.toList, isWhite c = true

instance (gap : String) : Decidable (AllWhite gap) :=
  decidable_of_iff (gap.toList.all isWhite = true) List.all_eq_true

/-- The piece that a whitespace character is read as. -/
def whitePiece : Char → TriviaPiece
  | ' ' => .spaces 1
  | '\t' => .tabs 1
  | '\n' => .newlines 1
  | _ => .carriageReturns 1

theorem cases_of_isWhite {c : Char} (h : isWhite c = true) :
    c = ' ' ∨ c = '\t' ∨ c = '\n' ∨ c = '\r' := by
  simpa [isWhite, or_assoc] using h

theorem chars_map_whitePiece {cs : List Char} (h : ∀ c ∈ cs, isWhite c = true) :
    chars (cs.map whitePiece) = cs := by
  induction cs with
  | nil => rfl
  | cons c cs ih =>
    have hc : (whitePiece c).text.toList = [c] := by
      rcases cases_of_isWhite (h c List.mem_cons_self) with rfl | rfl | rfl | rfl <;> rfl
    rw [List.map_cons, chars_cons, hc, ih fun d hd ↦ h d (List.mem_cons_of_mem c hd)]
    rfl

theorem gap_whites {cs after : List Char} (h : ∀ c ∈ cs, isWhite c = true)
    (hstop : stops false after = true) : Gap false (cs.map whitePiece) after := by
  induction cs with
  | nil => exact .stop hstop
  | cons c cs ih =>
    have hgap := ih fun d hd ↦ h d (List.mem_cons_of_mem c hd)
    rcases cases_of_isWhite (h c List.mem_cons_self) with rfl | rfl | rfl | rfl
    · exact .blank (.inl rfl) hgap
    · exact .blank (.inr rfl) hgap
    · exact .lineBreak (.inl rfl) rfl hgap
    · exact .lineBreak (.inr rfl) rfl hgap

theorem gap_blanks {cs after : List Char} (h : ∀ c ∈ cs, isIndentChar c = true)
    (hstop : stops true after = true) : Gap true (cs.map whitePiece) after := by
  induction cs with
  | nil => exact .stop hstop
  | cons c cs ih =>
    have hgap := ih fun d hd ↦ h d (List.mem_cons_of_mem c hd)
    have hc : c = ' ' ∨ c = '\t' := by
      simpa [isIndentChar] using h c List.mem_cons_self
    rcases hc with rfl | rfl
    · exact .blank (.inl rfl) hgap
    · exact .blank (.inr rfl) hgap

/-- The part of whitespace that stays with the token before it. -/
def blanksOf (gap : List Char) : Trivia := ofPieces ((gap.takeWhile isIndentChar).map whitePiece)

/-- The part of whitespace that leads the token after it. -/
def breaksOf (gap : List Char) : Trivia := ofPieces ((gap.dropWhile isIndentChar).map whitePiece)

section

variable {gap : List Char} (h : ∀ c ∈ gap, isWhite c = true)
include h

theorem toList_text_blanksOf : (blanksOf gap).text.toList = gap.takeWhile isIndentChar := by
  rw [blanksOf, toList_text_ofPieces,
    chars_map_whitePiece fun c hc ↦ h c ((List.takeWhile_sublist _).subset hc)]

theorem toList_text_breaksOf : (breaksOf gap).text.toList = gap.dropWhile isIndentChar := by
  rw [breaksOf, toList_text_ofPieces,
    chars_map_whitePiece fun c hc ↦ h c ((List.dropWhile_suffix _).subset hc)]

/-- Whitespace is read in two parts, before and after the first end of a line. -/
theorem stops_breaksOf {after : List Char} (hstop : stops false after = true) :
    stops true (gap.dropWhile isIndentChar ++ after) = true := by
  cases hbreaks : gap.dropWhile isIndentChar with
  | nil =>
    cases after with
    | nil => rfl
    | cons c cs =>
      simp only [stops, Bool.and_eq_true] at hstop
      simp [stops, hstop]
  | cons c cs =>
    have hwhite := h c ((List.dropWhile_suffix _).subset (hbreaks ▸ List.mem_cons_self))
    have hindent : isIndentChar c = false := by
      have hhead := List.head?_dropWhile_not isIndentChar gap
      simpa [hbreaks] using hhead
    rcases cases_of_isWhite hwhite with rfl | rfl | rfl | rfl
    · simp [isIndentChar] at hindent
    · simp [isIndentChar] at hindent
    · simp [stops, opensComment]
    · simp [stops, opensComment]

end

end Trivia

/-! ### Tokens written down -/

namespace Token

/-- The token was cut from some text, where no trivia started. -/
def StandsAlone (t : Token) : Prop :=
  ∃ after, t.CutBefore after ∧ stops false (t.text.toList ++ after) = true

theorem StandsAlone.kind_ne {t : Token} (h : t.StandsAlone) : t.kind ≠ .endOfFile := by
  obtain ⟨after, hcut, -⟩ := h
  exact hcut.kind_ne

/-- A token that stands alone with whitespace behind it. -/
structure Spaced (p : Token × String) : Prop where
  alone : p.1.StandsAlone
  white : Trivia.AllWhite p.2
  ne_empty : p.2 ≠ ""

/-- The texts of tokens, each followed by what is given with it. -/
def spread (ps : List (Token × String)) : String := String.join (ps.map fun p ↦ p.1.text ++ p.2)

theorem toList_spread_cons (p : Token × String) (ps : List (Token × String)) :
    (spread (p :: ps)).toList = p.1.text.toList ++ (p.2.toList ++ (spread ps).toList) := by
  simp [spread]

theorem spread_append (ps qs : List (Token × String)) :
    spread (ps ++ qs) = spread ps ++ spread qs := by
  simp [spread]

/-- The tokens as they are read back, behind the whitespace `gap`. -/
def respaced (gap : List Char) : List (Token × String) → List Token
  | [] => [{ kind := .endOfFile, text := "", leading := Trivia.breaksOf gap }]
  | (t, next) :: ps =>
    { t.bare with leading := Trivia.breaksOf gap, trailing := Trivia.blanksOf next.toList } ::
      respaced next.toList ps

theorem exists_respaced (gap : List Char) (ps : List (Token × String)) :
    ∃ t ts, respaced gap ps = t :: ts ∧ t.leading = Trivia.breaksOf gap := by
  cases ps with
  | nil => exact ⟨_, _, rfl, rfl⟩
  | cons p ps => exact ⟨_, _, rfl, rfl⟩

theorem map_bare_respaced (gap : List Char) (ps : List (Token × String)) :
    (respaced gap ps).map bare = ps.map (·.1.bare) ++ [plain .endOfFile ""] := by
  induction ps generalizing gap with
  | nil => rfl
  | cons p ps ih =>
    rw [respaced, List.map_cons, ih]
    rfl

section

variable {ps : List (Token × String)} (h : ∀ p ∈ ps, Spaced p)
include h

theorem bodyChars_respaced (gap : List Char) :
    bodyChars (respaced gap ps) = (spread ps).toList := by
  induction ps generalizing gap with
  | nil => rfl
  | cons p ps ih =>
    obtain ⟨t, next⟩ := p
    have hwhite := (h _ List.mem_cons_self).white
    obtain ⟨u, us, hus, hleading⟩ := exists_respaced next.toList ps
    have hbody := ih (fun q hq ↦ h q (List.mem_cons_of_mem _ hq)) next.toList
    rw [hus] at hbody
    rw [respaced, bodyChars, hus, listChars_eq_bodyChars, hbody, hleading,
      Trivia.toList_text_breaksOf hwhite, Trivia.toList_text_blanksOf hwhite, toList_spread_cons,
      ← List.append_assoc (next.toList.takeWhile _), List.takeWhile_append_dropWhile]
    rfl

theorem listChars_respaced {gap : List Char} (hgap : ∀ c ∈ gap, isWhite c = true) :
    listChars (respaced gap ps) = gap.dropWhile isIndentChar ++ (spread ps).toList := by
  obtain ⟨t, ts, hts, hleading⟩ := exists_respaced gap ps
  have hbody := bodyChars_respaced h gap
  rw [hts] at hbody ⊢
  rw [listChars_eq_bodyChars, hbody, hleading, Trivia.toList_text_breaksOf hgap]

/-- Whitespace after the first token keeps a comment from starting with it. -/
theorem stops_spread : stops false (spread ps).toList = true := by
  cases ps with
  | nil => rfl
  | cons p ps =>
    obtain ⟨⟨after, ⟨c, tail, htext, -⟩, hstop⟩, hwhite, hne⟩ := h p List.mem_cons_self
    obtain ⟨d, gap, hgap⟩ := List.exists_cons_of_ne_nil (l := p.2.toList) (by simpa using hne)
    have hmild : ∀ e ∈ (p.2.toList ++ (spread ps).toList).head?, Lexeme.isMild e = true := by
      rw [hgap]
      rintro e ⟨⟩
      rcases Trivia.cases_of_isWhite (hwhite d (hgap ▸ List.mem_cons_self)) with
        rfl | rfl | rfl | rfl <;> decide
    have hcomment : Trivia.opensComment (p.1.text.toList ++ after) = false := by
      rw [htext] at hstop ⊢
      simp only [List.cons_append, stops, Bool.and_eq_true, Bool.not_eq_true'] at hstop
      exact hstop.2
    have hedge := SameEdge.of_mild (by simp [htext]) hcomment hmild
    rw [toList_spread_cons, hedge.stops_eq, hstop]

/-- Tokens with whitespace between them are read back. -/
theorem spelled_respaced (gap : List Char) : Spelled (respaced gap ps) := by
  induction ps generalizing gap with
  | nil => exact ⟨rfl, rfl, rfl⟩
  | cons p ps ih =>
    obtain ⟨t, next⟩ := p
    obtain ⟨⟨after, hcut, -⟩, hwhite, hne⟩ := h _ List.mem_cons_self
    have hrest : ∀ q ∈ ps, Spaced q := fun q hq ↦ h q (List.mem_cons_of_mem _ hq)
    obtain ⟨u, us, hus, hleading⟩ := exists_respaced next.toList ps
    have hlist := listChars_respaced hrest hwhite
    have hbody := bodyChars_respaced hrest next.toList
    have hspelled := ih hrest next.toList
    rw [hus] at hlist hbody hspelled
    rw [respaced, hus]
    refine ⟨?_, ⟨_, rfl, ?_⟩, ⟨_, hleading, ?_⟩, hspelled⟩
    · obtain ⟨c, cs, hcs⟩ := List.exists_cons_of_ne_nil (l := next.toList) (by simpa using hne)
      dsimp only
      rw [hlist, Trivia.toList_text_blanksOf hwhite, ← List.append_assoc,
        List.takeWhile_append_dropWhile, hcs]
      exact hcut.of_isWhite (hwhite c (hcs ▸ List.mem_cons_self)) _
    · rw [hlist]
      exact Trivia.gap_blanks (fun c hc ↦ List.mem_takeWhile_imp hc)
        (Trivia.stops_breaksOf hwhite (stops_spread hrest))
    · rw [hbody]
      exact Trivia.gap_whites (fun c hc ↦ hwhite c ((List.dropWhile_suffix _).subset hc))
        (stops_spread hrest)

end

/-- Whitespace at the end belongs to the last token, or to the start if there is none. -/
theorem exists_spread_append {ps : List (Token × String)} (h : ∀ p ∈ ps, Spaced p)
    {last : String} (hlast : Trivia.AllWhite last) :
    ∃ gap qs, Trivia.AllWhite gap ∧ (∀ q ∈ qs, Spaced q) ∧
      spread ps ++ last = gap ++ spread qs ∧ qs.map Prod.fst = ps.map Prod.fst := by
  rcases List.eq_nil_or_concat' ps with rfl | ⟨init, ⟨t, gap⟩, rfl⟩
  · exact ⟨last, [], hlast, by simp, by simp [spread], rfl⟩
  · obtain ⟨halone, hwhite, hne⟩ := h (t, gap) (by simp)
    refine ⟨"", init ++ [(t, gap ++ last)], by simp [Trivia.AllWhite], ?_, ?_, by simp⟩
    · intro q hq
      rcases List.mem_append.1 hq with hq | hq
      · exact h q (List.mem_append_left _ hq)
      · obtain rfl := List.mem_singleton.1 hq
        refine ⟨halone, ?_, by simp [hne]⟩
        intro c hc
        rw [String.toList_append] at hc
        exact (List.mem_append.1 hc).elim (hwhite c) (hlast c)
    · simp [spread, String.append_assoc]

/-! ### The tokens of a source -/

/-- Every token but the last one stands alone. -/
theorem standsAlone_of_spelled {ts : List Token} {e : Token} (h : Spelled (ts ++ [e]))
    (hstop : stops false (bodyChars (ts ++ [e])) = true) : ∀ t ∈ ts, t.StandsAlone := by
  induction ts with
  | nil => simp
  | cons u us ih =>
    cases hus : us ++ [e] with
    | nil => simp at hus
    | cons v vs =>
      rw [List.cons_append, hus] at h hstop
      rw [hus] at ih
      obtain ⟨hcut, -, ⟨qs, -, hgap⟩, hspelled⟩ := h
      exact List.forall_mem_cons.2 ⟨⟨_, hcut, hstop⟩, ih hspelled hgap.stops_after⟩

/-- A byte order mark starts no token. -/
theorem CutBefore.head?_ne {t : Token} {after : List Char} (h : t.CutBefore after) :
    t.text.toList.head? ≠ some '\uFEFF' := by
  obtain ⟨c, tail, htext, hrule⟩ := h
  rw [htext, List.head?_cons, ne_eq, Option.some.injEq]
  rintro rfl
  have hcut (cs : List Char) : Lexeme.cut '\uFEFF' cs = .error (.noToken '\uFEFF') := by
    rw [Lexeme.cut, if_neg (by decide), if_neg (by decide), if_neg (by decide +kernel),
      if_neg (by decide), if_neg (by decide)]
    rfl
  have hrun := Lexeme.cut_of_rule hrule
  rw [hcut] at hrun
  simp at hrun

end Token

namespace TokenStream

open Token (Spelled Spaced bodyChars listChars respaced spread)

theorem standsAlone_of_ofSource {source : String} {s : TokenStream} (h : ofSource source = .ok s) :
    ∀ t ∈ s.tokens, t.StandsAlone := by
  obtain ⟨u, us, hus, hspelled, ps, hgap, -⟩ := spelled_of_ofSource h
  rw [← hus] at hspelled hgap
  exact Token.standsAlone_of_spelled hspelled hgap.stops_after

theorem spelled_endOfFile {source : String} {s : TokenStream} (h : ofSource source = .ok s) :
    Token.Spelled [s.endOfFile] := by
  obtain ⟨u, us, hus, hspelled, -⟩ := spelled_of_ofSource h
  rw [← hus] at hspelled
  exact Token.spelled_of_append hspelled (by simp)

theorem bare_endOfFile {source : String} {s : TokenStream} (h : ofSource source = .ok s) :
    s.endOfFile.bare = .plain .endOfFile "" := by
  obtain ⟨hkind, htext, -⟩ := spelled_endOfFile h
  rw [Token.bare, hkind, htext]

/-- A text of whitespace and tokens with whitespace behind them. -/
theorem ofSource_spread {gap : String} (hgap : Trivia.AllWhite gap) {ps : List (Token × String)}
    (h : ∀ p ∈ ps, Spaced p) : ∃ s, ofSource (gap ++ spread ps) = .ok s ∧
      s.toList.map Token.bare = ps.map (·.1.bare) ++ [.plain .endOfFile ""] := by
  obtain ⟨t, ts, hts, -⟩ := Token.exists_respaced gap.toList ps
  have hspelled := Token.spelled_respaced h gap.toList
  have hbody := Token.bodyChars_respaced h gap.toList
  have hbare := Token.map_bare_respaced gap.toList ps
  rw [hts] at hspelled hbody hbare
  -- At the start of the text all whitespace leads the first token.
  let first := t.withLeading (.ofPieces (gap.toList.map Trivia.whitePiece))
  have hfirst : bodyChars (first :: ts) = (spread ps).toList := hbody
  have hchars : listChars (first :: ts) = (gap ++ spread ps).toList := by
    rw [Token.listChars_eq_bodyChars, hfirst, String.toList_append]
    exact congrArg (· ++ _)
      ((Trivia.toList_text_ofPieces _).trans (Trivia.chars_map_whitePiece hgap))
  have hmark : (gap.toList ++ (spread ps).toList).head? ≠ some '\uFEFF' := by
    cases hcs : gap.toList with
    | cons c cs =>
      rcases Trivia.cases_of_isWhite (hgap c (hcs ▸ List.mem_cons_self)) with
        rfl | rfl | rfl | rfl <;> simp
    | nil =>
      cases ps with
      | nil => simp [spread]
      | cons p ps =>
        obtain ⟨⟨after, hcut, -⟩, -⟩ := h p List.mem_cons_self
        have hhead := hcut.head?_ne
        obtain ⟨c, tail, htext, -⟩ := hcut
        rw [Token.toList_spread_cons, htext]
        rwa [htext] at hhead
  have hstart : StartsFile first.leading (bodyChars (first :: ts)) := by
    rw [hfirst]
    refine ⟨_, Trivia.gap_whites hgap (Token.stops_spread h), .inl ⟨rfl, ?_⟩⟩
    rwa [Trivia.chars_map_whitePiece hgap]
  obtain ⟨s, hs, hmap⟩ := ofSource_of_spelled (Token.spelled_withLeading _ |>.2 hspelled) hstart
  refine ⟨s, ?_, ?_⟩
  · rw [← hs, hchars, String.ofList_toList]
  · have hdetached (us : List Token) :
        us.map Token.bare = (us.map Token.detached).map Token.bare := by
      rw [List.map_map]
      rfl
    rw [hdetached, hmap, ← hdetached, ← hbare]
    rfl

end TokenStream

/-- The tokens of a source are read back from their texts alone, whatever whitespace follows each
of them; behind the last one there may be none. -/
theorem tokenize_spread {source : String} {spaced : List (Token × String)}
    (h : tokenize source = .ok (spaced.map Prod.fst))
    (hwhite : ∀ p ∈ spaced, Trivia.AllWhite p.2)
    (hne : ∀ p ∈ spaced, p.1.kind ≠ .endOfFile → p.2 ≠ "") :
    ∃ ts, tokenize (Token.spread spaced) = .ok ts ∧
      ts.map Token.bare = spaced.map (·.1.bare) ∧
      ts.getLast?.map Token.bare = some (.plain .endOfFile "") := by
  obtain ⟨s, hs, hlist⟩ := tokenize_eq_ok.1 h
  obtain ⟨ps, rest, rfl, hps, hrest⟩ := List.map_eq_append_iff.1 hlist
  obtain ⟨⟨e, last⟩, rfl, he⟩ := List.map_eq_singleton_iff.1 hrest
  have hbare : e.bare = .plain .endOfFile "" := by
    rw [show e = s.endOfFile from he]
    exact TokenStream.bare_endOfFile hs
  have hspaced : ∀ p ∈ ps, Token.Spaced p := by
    intro p hp
    have hmem : p ∈ ps ++ [(e, last)] := List.mem_append_left _ hp
    have halone := TokenStream.standsAlone_of_ofSource hs p.1 (hps ▸ List.mem_map_of_mem hp)
    exact ⟨halone, hwhite p hmem, hne p hmem halone.kind_ne⟩
  obtain ⟨gap, qs, hgap, hqs, htext, hfst⟩ :=
    Token.exists_spread_append hspaced (hwhite (e, last) (by simp))
  obtain ⟨s', hs', hmap⟩ := TokenStream.ofSource_spread hgap hqs
  have hsource : Token.spread (ps ++ [(e, last)]) = gap ++ Token.spread qs := by
    have htexte : e.text = "" := congrArg Token.text hbare
    rw [Token.spread_append, ← htext]
    simp [Token.spread, htexte]
  have hqs : qs.map (·.1.bare) = ps.map (·.1.bare) := by
    simpa [Function.comp_def] using congrArg (List.map Token.bare) hfst
  have hall : s'.toList.map Token.bare = (ps ++ [(e, last)]).map (·.1.bare) := by
    rw [hmap, hqs, List.map_append, List.map_singleton, hbare]
  refine ⟨s'.toList, tokenize_eq_ok.2 ⟨s', hsource ▸ hs', rfl⟩, hall, ?_⟩
  rw [← List.getLast?_map, hmap, List.getLast?_concat]

/-- Tokens that end only because of what follows them. -/
def crowdedSource : String := "a+//b\n1.x=-/**/1.5##\"q\"##\"\"#"

/-- The tokens of `crowdedSource`, each with a whitespace character. -/
def crowdedTokens : List (Token × String) :=
  ((tokenize crowdedSource).toOption.getD []).zip
    [" ", "\t", "\n", "\r", " ", " \n", "\r\n", "\n\n", "\t ", "\n", ""]

theorem tokenize_spread_crowdedTokens :
    tokenize crowdedSource = .ok (crowdedTokens.map Prod.fst) ∧
      Token.spread crowdedTokens = "a +\t1\n.\rx =- \n1.5\r\n##\"q\"##\n\n\"\"\t #\n" ∧
      ∃ ts, tokenize (Token.spread crowdedTokens) = .ok ts ∧
        ts.map Token.bare = crowdedTokens.map (·.1.bare) := by
  have htokens : tokenize crowdedSource = .ok (crowdedTokens.map Prod.fst) := by decide +kernel
  have hwhite : ∀ p ∈ crowdedTokens, Trivia.AllWhite p.2 := by decide +kernel
  have hne : ∀ p ∈ crowdedTokens, p.1.kind ≠ .endOfFile → p.2 ≠ "" := by decide +kernel
  obtain ⟨ts, hts, hbare, -⟩ := tokenize_spread htokens hwhite hne
  exact ⟨htokens, by decide +kernel, ts, hts, hbare⟩

end EnumForge
