import EnumForge.Proofs.Token.Boundary
import EnumForge.Proofs.Token.Stream

/-!
# Tokens that read back as themselves

`Spelled ts` says that each token of `ts` is cut where it stands and that the trivia between two of
them is what the lexer reads there.  These are exactly the token lists that lexing a text brings,
so a list that is spelled out reads back as itself.
-/

namespace EnumForge

open Trivia (ReadsBefore Gap chars)

namespace Token

/-- The token is cut where its text stands before `after`. -/
def CutBefore (t : Token) (after : List Char) : Prop :=
  ∃ c tail, t.text.toList = c :: tail ∧ Lexeme.Rule c t.kind tail after

/-- The characters of tokens from the text of the first one on. -/
def bodyChars : List Token → List Char
  | [] => []
  | t :: ts => t.text.toList ++ (t.trailing.text.toList ++ listChars ts)

theorem listChars_eq_bodyChars (t : Token) (ts : List Token) :
    listChars (t :: ts) = t.leading.text.toList ++ bodyChars (t :: ts) := by
  simp [bodyChars]

/-- Tokens as they are cut from a text, the end of the file last. -/
def Spelled : List Token → Prop
  | [] => False
  | [e] => e.kind = .endOfFile ∧ e.text = "" ∧ e.trailing = .empty
  | a :: b :: ts =>
    a.CutBefore (a.trailing.text.toList ++ listChars (b :: ts)) ∧
    a.trailing.ReadsBefore true (listChars (b :: ts)) ∧
    b.leading.ReadsBefore false (bodyChars (b :: ts)) ∧ Spelled (b :: ts)

/-! ### Places do not matter -/

theorem listChars_map_detached (ts : List Token) : listChars (ts.map detached) = listChars ts := by
  simp [listChars, List.flatMap_map, detached, source]

theorem bodyChars_map_detached (ts : List Token) : bodyChars (ts.map detached) = bodyChars ts := by
  cases ts with
  | nil => rfl
  | cons t ts => rw [List.map_cons, bodyChars, bodyChars, listChars_map_detached]; rfl

theorem spelled_map_detached {ts : List Token} : Spelled (ts.map detached) ↔ Spelled ts := by
  induction ts with
  | nil => rfl
  | cons a ts ih =>
    cases ts with
    | nil => rfl
    | cons b ts =>
      have hchars := listChars_map_detached (b :: ts)
      have hbody := bodyChars_map_detached (b :: ts)
      simp only [List.map_cons] at ih hchars hbody ⊢
      rw [Spelled, Spelled, ih, hchars, hbody]
      rfl

end Token

namespace TokenStream

open Token (Spelled bodyChars)

theorem spelled_of_cut {leading : Trivia} {cs : List Char} {s : TokenStream}
    (h : cut leading cs = .ok s) :
    ∃ t ts, s.toList = t :: ts ∧ t.leading = leading ∧ bodyChars (t :: ts) = cs ∧
      Spelled (t :: ts) := by
  refine cut_induction (motive := fun leading cs s ↦ ∃ t ts, s.toList = t :: ts ∧
    t.leading = leading ∧ bodyChars (t :: ts) = cs ∧ Spelled (t :: ts)) ?_ ?_ h
  · intro leading
    exact ⟨_, [], rfl, rfl, by simp [bodyChars], rfl, rfl, rfl⟩
  · intro leading c cs t mid next rest s htoken hnext _ ih
    obtain ⟨kind, tail, after, trailing, hcut, hscan, rfl⟩ := nextToken_eq_ok.1 htoken
    obtain ⟨u, us, hus, hleading, hbody, hspelled⟩ := ih
    have htext := (chars_of_nextToken htoken).2
    have htail := Lexeme.append_of_cut hcut
    obtain ⟨ps, hafter, rfl, htrailing⟩ := Trivia.gap_of_scan hscan
    obtain ⟨qs, hmid, hqs, hgap⟩ := Trivia.gap_of_scan hnext
    have hlist : Token.listChars (u :: us) = mid := by
      rw [Token.listChars_eq_bodyChars, hbody, hleading, hmid, hqs]
      exact congrArg (· ++ rest) (Trivia.toList_text_ofPieces qs)
    refine ⟨_, u :: us, congrArg (_ :: ·) hus, rfl, ?_, ?_, ?_, ?_, hspelled⟩
    · rw [bodyChars, hlist]
      exact htext
    · refine ⟨c, tail, by simp, ?_⟩
      rw [hlist]
      have hrest : (Trivia.ofPieces ps).text.toList ++ mid = after := by
        rw [Trivia.toList_text_ofPieces, hafter]
      rw [← htail] at hcut
      exact Lexeme.rule_of_cut (hrest ▸ hcut)
    · rw [hlist]
      exact ⟨ps, rfl, htrailing⟩
    · rw [hbody, hleading]
      exact ⟨qs, hqs, hgap⟩

theorem cut_of_spelled {t : Token} {ts : List Token} (h : Spelled (t :: ts)) :
    ∃ s, cut t.leading (bodyChars (t :: ts)) = .ok s ∧
      s.toList = (t :: ts).map Token.detached := by
  induction ts generalizing t with
  | nil =>
    obtain ⟨kind, text, leading, trailing, span⟩ := t
    obtain ⟨hkind, htext, htrailing⟩ := h
    dsimp only at hkind htext htrailing
    subst hkind htext htrailing
    exact ⟨_, cut_nil leading, rfl⟩
  | cons u us ih =>
    obtain ⟨⟨c, tail, htext, hcut⟩, htrailing, hleading, hspelled⟩ := h
    obtain ⟨s, hs, hlist⟩ := ih hspelled
    have hchars : bodyChars (t :: u :: us) =
        c :: (tail ++ (t.trailing.text.toList ++ Token.listChars (u :: us))) := by
      rw [bodyChars, htext]
      rfl
    have hdetached : t.detached =
        { kind := t.kind, text := String.ofList (c :: tail), leading := t.leading,
          trailing := t.trailing } := by
      rw [← htext, String.ofList_toList]
      rfl
    have htoken : nextToken t.leading c
        (tail ++ (t.trailing.text.toList ++ Token.listChars (u :: us))) =
          .ok (t.detached, Token.listChars (u :: us)) :=
      nextToken_eq_ok.2 ⟨t.kind, tail, _, t.trailing, Lexeme.cut_of_rule hcut,
        Trivia.readsBefore_iff.1 htrailing, hdetached⟩
    refine ⟨⟨t.detached :: s.tokens, s.endOfFile⟩, ?_, ?_⟩
    · rw [hchars]
      refine cut_cons_eq_ok.2 ⟨_, _, u.leading, _, s, htoken, ?_, hs, rfl⟩
      rw [Token.listChars_eq_bodyChars]
      exact Trivia.readsBefore_iff.1 hleading
    · rw [List.map_cons, ← hlist]
      rfl

/-! ### Whole texts -/

/-- Trivia at the start of a file, where a byte order mark is trivia too. -/
def StartsFile (t : Trivia) (after : List Char) : Prop :=
  ∃ ps, Gap false ps after ∧
    (t = Trivia.ofPieces ps ∧ (chars ps ++ after).head? ≠ some '\uFEFF' ∨
      t = Trivia.ofPieces (.byteOrderMark :: ps))

theorem startTrivia_of_head?_ne {cs : List Char} (h : cs.head? ≠ some '\uFEFF') :
    startTrivia cs = (.empty, cs) := by
  unfold startTrivia
  split
  · simp at h
  · rfl

theorem scan_of_startsFile {t : Trivia} {after : List Char} (h : StartsFile t after) :
    Trivia.scan false (startTrivia (t.text.toList ++ after)).1
      (startTrivia (t.text.toList ++ after)).2 = .ok (t, after) := by
  obtain ⟨ps, hgap, ⟨rfl, hmark⟩ | rfl⟩ := h
  · rw [Trivia.toList_text_ofPieces, startTrivia_of_head?_ne hmark]
    exact Trivia.scan_of_gap hgap .empty
  · have hstart : startTrivia ((Trivia.ofPieces (.byteOrderMark :: ps)).text.toList ++ after) =
        (.ofPieces [.byteOrderMark], chars ps ++ after) := by
      rw [Trivia.toList_text_ofPieces]
      rfl
    rw [hstart]
    exact Trivia.scan_of_gap hgap _

theorem startsFile_of_scan {cs after : List Char} {t : Trivia}
    (h : Trivia.scan false (startTrivia cs).1 (startTrivia cs).2 = .ok (t, after)) :
    StartsFile t after := by
  obtain ⟨ps, hcs, rfl, hgap⟩ := Trivia.gap_of_scan h
  refine ⟨ps, hgap, ?_⟩
  by_cases hmark : cs.head? = some '\uFEFF'
  · obtain ⟨rest, rfl⟩ := List.head?_eq_some_iff.1 hmark
    exact .inr rfl
  · rw [startTrivia_of_head?_ne hmark] at hcs ⊢
    dsimp only at hcs
    exact .inl ⟨rfl, hcs ▸ hmark⟩

theorem map_detached_placeTokens (n : Nat) (ts : List Token) :
    (placeTokens n ts).1.map Token.detached = ts.map Token.detached := by
  induction ts generalizing n with
  | nil => rfl
  | cons t ts ih => exact congrArg (t.detached :: ·) (ih _)

theorem map_detached_place (s : TokenStream) :
    s.place.toList.map Token.detached = s.toList.map Token.detached := by
  simp only [toList, place, List.map_append, map_detached_placeTokens]
  rfl

theorem spelled_of_ofSource {source : String} {s : TokenStream} (h : ofSource source = .ok s) :
    ∃ t ts, s.toList = t :: ts ∧ Spelled (t :: ts) ∧
      StartsFile t.leading (bodyChars (t :: ts)) := by
  obtain ⟨c, hcut, rfl⟩ := ofSource_eq_ok.1 h
  obtain ⟨leading, rest, hscan, hcut⟩ := cutAll_eq_ok.1 hcut
  obtain ⟨u, us, hus, hleading, hbody, hspelled⟩ := spelled_of_cut hcut
  have hmap := map_detached_place c
  rw [hus] at hmap
  obtain ⟨t, ts, hts, ht, -⟩ := List.map_eq_cons_iff.1 hmap
  rw [hts] at hmap
  refine ⟨t, ts, hts, ?_, ?_⟩
  · rw [← Token.spelled_map_detached, hmap, Token.spelled_map_detached]
    exact hspelled
  · have htleading : t.leading = u.leading := by
      simpa [Token.detached] using congrArg Token.leading ht
    rw [← Token.bodyChars_map_detached, hmap, Token.bodyChars_map_detached, htleading, hbody,
      hleading]
    exact startsFile_of_scan hscan

theorem ofSource_of_spelled {t : Token} {ts : List Token} (h : Spelled (t :: ts))
    (hstart : StartsFile t.leading (bodyChars (t :: ts))) :
    ∃ s, ofSource (String.ofList (Token.listChars (t :: ts))) = .ok s ∧
      s.toList.map Token.detached = (t :: ts).map Token.detached := by
  obtain ⟨s, hcut, hlist⟩ := cut_of_spelled h
  refine ⟨s.place, ofSource_eq_ok.2 ⟨s, ?_, rfl⟩, ?_⟩
  · rw [String.toList_ofList, Token.listChars_eq_bodyChars]
    exact cutAll_eq_ok.2 ⟨t.leading, _, scan_of_startsFile hstart, hcut⟩
  · rw [map_detached_place, hlist, List.map_map]
    rfl

end TokenStream

end EnumForge
