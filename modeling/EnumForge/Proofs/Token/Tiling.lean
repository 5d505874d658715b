import EnumForge.Proofs.Token.Place
import EnumForge.Proofs.Token.Spreading
import Mathlib.Data.String.Basic

/-!
# How tokens tile their source

The texts of the tokens of a source, with the trivia around them, follow each other without gaps,
and each token lies where its text falls.  The line of a token ends its trailing trivia: line
breaks lead the next token, and every line comment stands at the end of its line.
-/

namespace EnumForge

open Text (Span)
open Token (Spelled Ready bodyChars listChars)

namespace Text.Span

/-- The part of a text that the span covers. -/
def slice (s : Span) (source : String) : String :=
  String.Pos.Raw.extract source ⟨s.start⟩ ⟨s.stop⟩

theorem slice_append (before text after : String) :
    (Span.mk before.utf8ByteSize (before.utf8ByteSize + text.utf8ByteSize)).slice
      (before ++ text ++ after) = text := by
  have hsize (s : String) : String.utf8Len s.toList = s.utf8ByteSize := by
    rw [← String.utf8ByteSize_ofList, String.ofList_toList]
  have hvalid := String.extract_of_valid before.toList text.toList after.toList
  rw [hsize, hsize, String.ofList_append, String.ofList_append] at hvalid
  simpa only [slice, String.ofList_toList] using hvalid

end Text.Span

/-! ### Pieces of trivia that are merged -/

namespace TriviaPiece

/-- Line feeds and carriage returns. -/
def isLineBreak : TriviaPiece → Bool
  | newlines _ | carriageReturns _ => true
  | _ => false

def isLineComment : TriviaPiece → Bool
  | lineComment _ => true
  | _ => false

theorem isLineBreak_of_merge? {p q merged : TriviaPiece} (h : q.merge? p = some merged) :
    merged.isLineBreak = q.isLineBreak := by
  cases q <;> cases p <;> simp [merge?] at h <;> subst h <;> rfl

theorem isLineComment_of_merge? {p q merged : TriviaPiece} (h : q.merge? p = some merged) :
    merged.isLineComment = false ∧ q.isLineComment = false ∧ p.isLineComment = false := by
  cases q <;> cases p <;> simp [merge?] at h <;> subst h <;> exact ⟨rfl, rfl, rfl⟩

end TriviaPiece

namespace Trivia

/-- The first piece stays of its kind. -/
theorem isLineBreak_head_ofPieces (p : TriviaPiece) (ps : List TriviaPiece) :
    (ofPieces (p :: ps)).pieces.head?.map TriviaPiece.isLineBreak = some p.isLineBreak := by
  induction ps using List.reverseRecOn with
  | nil => rfl
  | append_singleton ps q ih =>
    rw [← List.cons_append, ofPieces_concat, push, ← ih]
    rcases pushPiece_eq q (ofPieces (p :: ps)).pieces with
      hpush | ⟨init, r, merged, hlast, hm, hpush⟩
    · rw [hpush]
      cases hpieces : (ofPieces (p :: ps)).pieces with
      | nil => simp [hpieces] at ih
      | cons r rs => rfl
    · rw [hpush, hlast]
      cases init with
      | nil => exact congrArg some (TriviaPiece.isLineBreak_of_merge? hm)
      | cons s init => rfl

/-! ### Line comments -/

/-- Every line comment among the pieces is followed by the end of its line or of the text, where
`after` stands behind the pieces. -/
def CommentsEnd : List TriviaPiece → List Char → Prop
  | [], _ => True
  | p :: ps, after =>
    (p.isLineComment = true → ∀ c ∈ (chars ps ++ after).head?, c = '\n' ∨ c = '\r') ∧
      CommentsEnd ps after

theorem commentsEnd_append {ps qs : List TriviaPiece} {after : List Char} :
    CommentsEnd (ps ++ qs) after ↔ CommentsEnd ps (chars qs ++ after) ∧ CommentsEnd qs after := by
  induction ps with
  | nil => simp [CommentsEnd]
  | cons p ps ih => simp [CommentsEnd, ih, and_assoc]

theorem commentsEnd_push (t : Trivia) (p : TriviaPiece) (after : List Char) :
    CommentsEnd (t.push p).pieces after ↔ CommentsEnd (t.pieces ++ [p]) after := by
  rw [push]
  rcases pushPiece_eq p t.pieces with hpush | ⟨init, q, merged, hlast, hm, hpush⟩
  · rw [hpush]
  · obtain ⟨hmerged, hq, hp⟩ := TriviaPiece.isLineComment_of_merge? hm
    have htext := TriviaPiece.text_merge? hm
    rw [hpush, hlast]
    simp [commentsEnd_append, CommentsEnd, hmerged, hq, hp, htext]

/-- Merging blanks changes nothing around a comment. -/
theorem commentsEnd_ofPieces (ps : List TriviaPiece) (after : List Char) :
    CommentsEnd (ofPieces ps).pieces after ↔ CommentsEnd ps after := by
  induction ps using List.reverseRecOn generalizing after with
  | nil => rfl
  | append_singleton ps p ih =>
    rw [ofPieces_concat, commentsEnd_push, commentsEnd_append, ih, commentsEnd_append]

namespace Gap

variable {sameLine : Bool} {ps : List TriviaPiece} {after : List Char}

theorem commentsEnd (h : Gap sameLine ps after) : CommentsEnd ps after := by
  induction h with
  | stop => trivial
  | blank hp _ ih => rcases hp with rfl | rfl <;> exact ⟨by simp [TriviaPiece.isLineComment], ih⟩
  | lineBreak hp _ _ ih =>
    rcases hp with rfl | rfl <;> exact ⟨by simp [TriviaPiece.isLineComment], ih⟩
  | @lineComment body ps after hbody _ ih =>
    refine ⟨fun _ c hc ↦ ?_, ih⟩
    obtain ⟨cs, hcs⟩ := List.head?_eq_some_iff.1 (Option.mem_def.1 hc)
    rw [hcs] at hbody
    by_contra hline
    -- The comment would go on over any other character.
    have hmem : '\n' ∈ [] := newline_mem_of_commentBody hbody (by simpa using hline)
    simp at hmem
  | blockComment _ _ ih => exact ⟨by simp [TriviaPiece.isLineComment], ih⟩

/-- The trivia after a token stays on its line. -/
theorem staysOnLine (h : Gap true ps after) :
    ∀ p ∈ ps, p.isLineBreak = false ∧ p ≠ .byteOrderMark := by
  induction h with
  | stop => simp
  | blank hp _ ih => rcases hp with rfl | rfl <;> exact List.forall_mem_cons.2 ⟨by decide, ih⟩
  | lineBreak _ hline _ _ => simp at hline
  | lineComment _ _ ih | blockComment _ _ ih =>
    exact List.forall_mem_cons.2 ⟨⟨rfl, by simp⟩, ih⟩

/-- Trivia that starts with the end of a line starts with such a piece. -/
theorem isLineBreak_head (h : Gap false ps after)
    (hhead : ∀ c ∈ (chars ps).head?, c = '\n' ∨ c = '\r') :
    ∀ p ∈ ps.head?, p.isLineBreak = true := by
  cases h with
  | stop => simp
  | blank hp _ => rcases hp with rfl | rfl <;> simp [TriviaPiece.text] at hhead
  | lineBreak hp _ _ => rcases hp with rfl | rfl <;> simp [TriviaPiece.isLineBreak]
  | lineComment | blockComment => simp [TriviaPiece.text] at hhead

end Gap

end Trivia

open Trivia (CommentsEnd)

namespace Token

theorem size_join (ts : List Token) :
    (String.join (ts.map source)).utf8ByteSize = Text.byteSize (listChars ts) := by
  rw [← Text.byteSize_toList, String.toList_join, List.flatMap_map]
  rfl

/-- Tokens that stand one after the other do not overlap. -/
theorem pairwise_stop_of_placed {n : Nat} {ts : List Token} (h : Placed n ts) :
    ts.Pairwise fun t u ↦ ∃ r ∈ t.span, ∃ s ∈ u.span, r.stop ≤ s.start := by
  induction ts generalizing n with
  | nil => exact .nil
  | cons t ts ih =>
    refine .cons (fun u hu ↦ ?_) (ih h.2)
    obtain ⟨s, hs, hstart⟩ := le_start_of_placed h.2 u hu
    have hsize := size_source t
    exact ⟨_, h.1, s, hs, by dsimp only; omega⟩

end Token

/-! ### One token in its source -/

namespace Token

/-- How a token lies between those before and after it. -/
structure Lies (before : List Token) (t : Token) (after : List Token) : Prop where
  /-- The span is where the text of the token falls. -/
  span : t.span = some
    ⟨(String.join (before.map source) ++ t.leading.text).utf8ByteSize,
      (String.join (before.map source) ++ t.leading.text).utf8ByteSize + t.text.utf8ByteSize⟩
  leading : before ≠ [] → ∀ p ∈ t.leading.pieces.head?, p.isLineBreak = true
  trailing : ∀ p ∈ t.trailing.pieces, p.isLineBreak = false ∧ p ≠ .byteOrderMark
  leadingComments : CommentsEnd t.leading.pieces (bodyChars (t :: after))
  trailingComments : CommentsEnd t.trailing.pieces (listChars after)

theorem trailing_of_spelled {t : Token} {ts : List Token} (h : Spelled (t :: ts)) :
    (∀ p ∈ t.trailing.pieces, p.isLineBreak = false ∧ p ≠ .byteOrderMark) ∧
      CommentsEnd t.trailing.pieces (listChars ts) := by
  cases ts with
  | nil =>
    obtain ⟨-, -, htrailing⟩ := h
    rw [htrailing]
    exact ⟨by simp [Trivia.empty], trivial⟩
  | cons u us =>
    obtain ⟨-, ⟨ps, hps, hgap⟩, -⟩ := h
    rw [hps]
    refine ⟨Trivia.forall_mem_ofPieces ?_ hgap.staysOnLine,
      (Trivia.commentsEnd_ofPieces _ _).2 hgap.commentsEnd⟩
    intro p q merged hmerge hq
    refine ⟨(TriviaPiece.isLineBreak_of_merge? hmerge).trans hq.1, ?_⟩
    rintro rfl
    cases q <;> cases p <;> simp [TriviaPiece.merge?] at hmerge

theorem leading_of_ready {t : Token} {ts : List Token} (h : Ready (t :: ts)) :
    (∀ p ∈ t.leading.pieces.head?, p.isLineBreak = true) ∧
      CommentsEnd t.leading.pieces (bodyChars (t :: ts)) := by
  obtain ⟨-, ⟨ps, hps, hgap⟩, hhead⟩ := h
  rw [hps, Trivia.toList_text_ofPieces] at hhead
  have hbreak := hgap.isLineBreak_head hhead
  rw [hps]
  refine ⟨?_, (Trivia.commentsEnd_ofPieces _ _).2 hgap.commentsEnd⟩
  cases ps with
  | nil => simp [Trivia.ofPieces, Trivia.empty]
  | cons q qs =>
    intro p hp
    have hkind := Trivia.isLineBreak_head_ofPieces q qs
    rw [Option.mem_def.1 hp, Option.map_some, hbreak q rfl] at hkind
    exact Option.some.inj hkind

theorem commentsEnd_of_startsFile {t : Trivia} {after : List Char}
    (h : TokenStream.StartsFile t after) : CommentsEnd t.pieces after := by
  obtain ⟨ps, hgap, ⟨rfl, -⟩ | rfl⟩ := h
  · exact (Trivia.commentsEnd_ofPieces _ _).2 hgap.commentsEnd
  · exact (Trivia.commentsEnd_ofPieces _ _).2
      ⟨by simp [TriviaPiece.isLineComment], hgap.commentsEnd⟩

end Token

/-! ### All tokens of a source -/

/-- The tokens lie in the source one after the other and make up all of it. -/
structure Tiles (source : String) (ts : List Token) : Prop where
  join_source : String.join (ts.map Token.source) = source
  lies {before after : List Token} {t : Token} (h : ts = before ++ t :: after) :
    t.Lies before after
  /-- The end of the file is the last token and no other. -/
  endOfFile : ∃ tokens e, ts = tokens ++ [e] ∧ e.kind = .endOfFile ∧
    e.span = some ⟨source.utf8ByteSize, source.utf8ByteSize⟩ ∧
    ∀ t ∈ tokens, t.kind ≠ .endOfFile ∧ t.text ≠ ""
  slice : ∀ t ∈ ts, ∃ s ∈ t.span, s.slice source = t.text
  ordered : ts.Pairwise fun t u ↦ ∃ r ∈ t.span, ∃ s ∈ u.span, r.stop ≤ s.start

namespace TokenStream

variable {source : String} {s : TokenStream}

theorem lies_of_ofSource (h : ofSource source = .ok s) {before after : List Token} {t : Token}
    (hlist : s.toList = before ++ t :: after) : t.Lies before after := by
  obtain ⟨u, us, hus, hspelled, hstart⟩ := spelled_of_ofSource h
  have hplaced := placed_of_ofSource h
  rw [← hus, hlist] at hspelled
  rw [hlist] at hplaced
  obtain ⟨-, hspan, -⟩ := Token.placed_append.1 hplaced
  obtain ⟨htrailing, htrailingComments⟩ :=
    Token.trailing_of_spelled (Token.spelled_of_append hspelled (by simp))
  refine ⟨?_, ?_, htrailing, ?_, htrailingComments⟩
  · rw [String.utf8ByteSize_append, Token.size_join, hspan, Nat.zero_add]
  · intro hne
    exact (Token.leading_of_ready (Token.ready_of_append hspelled hne (by simp))).1
  · cases before with
    | nil =>
      obtain ⟨rfl, rfl⟩ : u = t ∧ us = after := by simpa using hus.symm.trans hlist
      exact Token.commentsEnd_of_startsFile hstart
    | cons b before =>
      exact (Token.leading_of_ready (Token.ready_of_append hspelled (by simp) (by simp))).2

theorem join_source_of_ofSource (h : ofSource source = .ok s) :
    String.join (s.toList.map Token.source) = source := by
  rw [← String.toList_inj, ← listChars_of_ofSource h, String.toList_join, List.flatMap_map]
  rfl

theorem span_endOfFile_of_ofSource (h : ofSource source = .ok s) :
    s.endOfFile.span = some ⟨source.utf8ByteSize, source.utf8ByteSize⟩ := by
  have hlist : s.toList = s.tokens ++ s.endOfFile :: [] := rfl
  have hspan := (lies_of_ofSource h hlist).span
  have hjoin := join_source_of_ofSource h
  obtain ⟨-, htext, htrailing⟩ := spelled_endOfFile h
  have hsource : s.endOfFile.source = s.endOfFile.leading.text := by
    rw [Token.source, htext, htrailing]
    simp [Trivia.text, Trivia.empty]
  rw [toList, List.map_append, String.join_append, List.map_singleton, hsource] at hjoin
  rw [hspan, htext, ← hjoin]
  simp

theorem tiles_of_ofSource (h : ofSource source = .ok s) : Tiles source s.toList := by
  have hjoin := join_source_of_ofSource h
  refine ⟨hjoin, lies_of_ofSource h, ⟨s.tokens, s.endOfFile, rfl, ?_, ?_, ?_⟩, ?_,
    Token.pairwise_stop_of_placed (placed_of_ofSource h)⟩
  · exact congrArg Token.kind (bare_endOfFile h)
  · exact span_endOfFile_of_ofSource h
  · intro t ht
    exact ⟨(standsAlone_of_ofSource h t ht).kind_ne, text_ne_empty_of_ofSource h ht⟩
  · intro t ht
    obtain ⟨before, after, hlist⟩ := List.append_of_mem ht
    refine ⟨_, (lies_of_ofSource h hlist).span, ?_⟩
    have htext : source = String.join (before.map Token.source) ++ t.leading.text ++ t.text ++
        (t.trailing.text ++ String.join (after.map Token.source)) := by
      rw [← hjoin, hlist]
      simp [Token.source, String.append_assoc]
    rw [htext]
    exact Text.Span.slice_append _ _ _

end TokenStream

theorem tiles_of_tokenize {source : String} {ts : List Token} (h : tokenize source = .ok ts) :
    Tiles source ts := by
  obtain ⟨s, hs, rfl⟩ := tokenize_eq_ok.1 h
  exact TokenStream.tiles_of_ofSource hs

/-- A byte order mark, comments of both forms, all line ends, and texts of several bytes. -/
def assortedSource : String :=
  "\uFEFF/* α */`é`= ##\"ü\"# \"## // trailing\r\n\r\"\"\"\n x\"\"\" //end"

theorem tiles_assortedSource : ∃ ts, tokenize assortedSource = .ok ts ∧
    ts.map Token.span = [some ⟨11, 15⟩, some ⟨15, 16⟩, some ⟨17, 28⟩, some ⟨43, 52⟩,
      some ⟨58, 58⟩] ∧ Tiles assortedSource ts := by
  have htokens : tokenize assortedSource = .ok ((tokenize assortedSource).toOption.getD []) := by
    decide +kernel
  exact ⟨_, htokens, by decide +kernel, tiles_of_tokenize htokens⟩

end EnumForge
