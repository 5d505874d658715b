import EnumForge.Proofs.Text.Search
import EnumForge.Trivia.Scan

/-!
# Gaps between tokens

The trivia that stands between two tokens as a relation: `Gap sameLine ps after` says that reading
trivia before `after` takes exactly the pieces `ps`, one for each blank.  Reading looks at the text
after the gap only to see that it does not go on, so a gap stays one before any other text that
starts with a token.
-/

namespace EnumForge.Trivia

open Text

/-- Whether the character separates tokens wherever it stands between them. -/
def isWhite (c : Char) : Bool := c == ' ' || c == '\t' || c == '\n' || c == '\r'

/-- Whether a comment starts here. -/
def opensComment : List Char → Bool
  | [] => false
  | c :: cs => c == '/' && cs.head?.any fun d ↦ d == '/' || d == '*'

/-- Whether no trivia starts here; with `sameLine`, the end of the line is none. -/
def stops (sameLine : Bool) : List Char → Bool
  | [] => true
  | c :: cs =>
    c != ' ' && c != '\t' && (sameLine || c != '\n' && c != '\r') && !opensComment (c :: cs)

/-- The characters of pieces of trivia. -/
def chars (ps : List TriviaPiece) : List Char := ps.flatMap fun p ↦ p.text.toList

inductive Gap (sameLine : Bool) : List TriviaPiece → List Char → Prop where
  | stop {after : List Char} (h : stops sameLine after = true) : Gap sameLine [] after
  | blank {p : TriviaPiece} {ps : List TriviaPiece} {after : List Char}
      (hp : p = .spaces 1 ∨ p = .tabs 1) (h : Gap sameLine ps after) : Gap sameLine (p :: ps) after
  | lineBreak {p : TriviaPiece} {ps : List TriviaPiece} {after : List Char}
      (hp : p = .newlines 1 ∨ p = .carriageReturns 1) (hline : sameLine = false)
      (h : Gap sameLine ps after) : Gap sameLine (p :: ps) after
  | lineComment {body : List Char} {ps : List TriviaPiece} {after : List Char}
      (hbody : commentBody (body ++ (chars ps ++ after)) = body) (h : Gap sameLine ps after) :
      Gap sameLine (.lineComment (String.ofList ('/' :: '/' :: body)) :: ps) after
  | blockComment {body : List Char} {ps : List TriviaPiece} {after : List Char}
      (hbody : splitAtFirst? ['*', '/'] (body ++ '*' :: '/' :: (chars ps ++ after)) =
        some (body, chars ps ++ after)) (h : Gap sameLine ps after) :
      Gap sameLine (.blockComment (String.ofList ('/' :: '*' :: (body ++ ['*', '/']))) :: ps) after

@[simp] theorem chars_nil : chars [] = [] := rfl

@[simp] theorem chars_cons (p : TriviaPiece) (ps : List TriviaPiece) :
    chars (p :: ps) = p.text.toList ++ chars ps := rfl

@[simp] theorem chars_append (ps qs : List TriviaPiece) :
    chars (ps ++ qs) = chars ps ++ chars qs := List.flatMap_append

theorem toList_text_foldl_push (acc : Trivia) (ps : List TriviaPiece) :
    (ps.foldl push acc).text.toList = acc.text.toList ++ chars ps := by
  induction ps generalizing acc with
  | nil => simp
  | cons p ps ih => simp [ih]

theorem toList_text_ofPieces (ps : List TriviaPiece) :
    (ofPieces ps).text.toList = chars ps := by
  simp [ofPieces, toList_text_foldl_push]

/-! ### Gaps are what is read -/

theorem scan_of_stops {sameLine : Bool} {cs : List Char} (h : stops sameLine cs = true)
    (acc : Trivia) : scan sameLine acc cs = .ok (acc, cs) := by
  rw [scan.eq_def]
  split
  next => simp [stops] at h
  next => simp [stops] at h
  next =>
    have hline : sameLine = true := by simpa [stops, opensComment] using h
    rw [if_pos hline]
  next =>
    have hline : sameLine = true := by simpa [stops, opensComment] using h
    rw [if_pos hline]
  next => simp [stops, opensComment] at h
  next => simp [stops, opensComment] at h
  next => rfl

theorem scan_of_gap {sameLine : Bool} {ps : List TriviaPiece} {after : List Char}
    (h : Gap sameLine ps after) (acc : Trivia) :
    scan sameLine acc (chars ps ++ after) = .ok (ps.foldl push acc, after) := by
  induction h generalizing acc with
  | stop h => exact scan_of_stops h acc
  | @blank p ps after hp _ ih =>
    rw [List.foldl_cons, ← ih]
    rcases hp with rfl | rfl
    · exact scan.eq_1 _ _ _
    · exact scan.eq_2 _ _ _
  | @lineBreak p ps after hp hline _ ih =>
    subst hline
    rw [List.foldl_cons, ← ih]
    rcases hp with rfl | rfl
    · exact (scan.eq_3 _ _ _).trans (if_neg (by simp))
    · exact (scan.eq_4 _ _ _).trans (if_neg (by simp))
  | @lineComment body ps after hbody _ ih =>
    rw [List.foldl_cons, ← ih]
    simp only [chars_cons, TriviaPiece.text, String.toList_ofList, List.cons_append,
      List.append_assoc]
    rw [scan, hbody, List.drop_left]
  | @blockComment body ps after hbody _ ih =>
    rw [List.foldl_cons, ← ih]
    simp only [chars_cons, TriviaPiece.text, String.toList_ofList, List.cons_append,
      List.append_assoc, List.nil_append]
    rw [scan, hbody]

theorem gap_of_scan {sameLine : Bool} {acc t : Trivia} {cs after : List Char}
    (h : scan sameLine acc cs = .ok (t, after)) :
    ∃ ps, cs = chars ps ++ after ∧ t = ps.foldl push acc ∧ Gap sameLine ps after := by
  fun_induction scan sameLine acc cs with
  | case1 acc rest ih =>
    obtain ⟨ps, rfl, rfl, hgap⟩ := ih h
    exact ⟨.spaces 1 :: ps, rfl, rfl, .blank (.inl rfl) hgap⟩
  | case2 acc rest ih =>
    obtain ⟨ps, rfl, rfl, hgap⟩ := ih h
    exact ⟨.tabs 1 :: ps, rfl, rfl, .blank (.inr rfl) hgap⟩
  | case3 acc rest hline =>
    simp only [Except.ok.injEq, Prod.mk.injEq] at h
    obtain ⟨rfl, rfl⟩ := h
    exact ⟨[], rfl, rfl, .stop (by simp [stops, opensComment, hline])⟩
  | case4 acc rest hline ih =>
    obtain ⟨ps, rfl, rfl, hgap⟩ := ih h
    exact ⟨.newlines 1 :: ps, rfl, rfl, .lineBreak (.inl rfl) (by simpa using hline) hgap⟩
  | case5 acc rest hline =>
    simp only [Except.ok.injEq, Prod.mk.injEq] at h
    obtain ⟨rfl, rfl⟩ := h
    exact ⟨[], rfl, rfl, .stop (by simp [stops, opensComment, hline])⟩
  | case6 acc rest hline ih =>
    obtain ⟨ps, rfl, rfl, hgap⟩ := ih h
    exact ⟨.carriageReturns 1 :: ps, rfl, rfl, .lineBreak (.inr rfl) (by simpa using hline) hgap⟩
  | case7 acc rest ih =>
    obtain ⟨ps, hrest, rfl, hgap⟩ := ih h
    have hsplit := commentBody_append_drop rest
    rw [hrest] at hsplit
    refine ⟨.lineComment (String.ofList ('/' :: '/' :: commentBody rest)) :: ps, ?_, rfl,
      .lineComment (by rw [hsplit]) hgap⟩
    simp only [chars_cons, TriviaPiece.text, String.toList_ofList, List.cons_append,
      List.append_assoc, hsplit]
  | case8 => simp at h
  | case9 acc rest body rest' closed ih =>
    obtain ⟨ps, rfl, rfl, hgap⟩ := ih h
    have hsplit := append_of_splitAtFirst? closed
    refine ⟨.blockComment (String.ofList ('/' :: '*' :: (body ++ ['*', '/']))) :: ps, ?_, rfl,
      .blockComment ?_ hgap⟩
    · simp only [chars_cons, TriviaPiece.text, String.toList_ofList, List.cons_append,
        List.append_assoc, ← hsplit]
    · rw [← hsplit] at closed
      exact closed
  | case10 acc cs h₁ h₂ h₃ h₄ h₅ h₆ =>
    simp only [Except.ok.injEq, Prod.mk.injEq] at h
    obtain ⟨rfl, rfl⟩ := h
    refine ⟨[], rfl, rfl, .stop ?_⟩
    rcases cs with - | ⟨c, cs⟩
    · rfl
    have hopen : opensComment (c :: cs) = false := by
      rcases cs with - | ⟨d, cs⟩
      · simp [opensComment]
      · simp only [opensComment, List.head?_cons, Option.any_some, Bool.and_eq_false_imp,
          beq_iff_eq, Bool.or_eq_false_iff, beq_eq_false_iff_ne]
        rintro rfl
        exact ⟨fun hd ↦ h₅ cs (by rw [hd]), fun hd ↦ h₆ cs (by rw [hd])⟩
    have hblank : c ≠ ' ' ∧ c ≠ '\t' ∧ c ≠ '\n' ∧ c ≠ '\r' :=
      ⟨fun hc ↦ h₁ cs (by rw [hc]), fun hc ↦ h₂ cs (by rw [hc]), fun hc ↦ h₃ cs (by rw [hc]),
        fun hc ↦ h₄ cs (by rw [hc])⟩
    simp [stops, hopen, hblank]

/-! ### Comments and what follows them -/

theorem commentBody_spec {body rest : List Char} (h : commentBody (body ++ rest) = body) :
    '\n' ∉ body ∧ trimEnd '\r' body = body := by
  have hstart : commentBody (body ++ rest) <+: (body ++ rest).takeWhile (· != '\n') :=
    trimEnd_isPrefix _ _
  rw [h] at hstart
  refine ⟨fun hmem ↦ ?_, ?_⟩
  · simpa using List.mem_takeWhile_imp (hstart.subset hmem)
  · rw [← h, commentBody, trimEnd_trimEnd]

/-- Whether a line ends here, carriage returns before the line break included. -/
def endsLine (cs : List Char) : Bool := (cs.dropWhile (· == '\r')).head? == some '\n'

theorem exists_of_endsLine {cs : List Char} (h : endsLine cs = true) :
    ∃ n rest, cs = List.replicate n '\r' ++ '\n' :: rest := by
  obtain ⟨rest, hrest⟩ := List.head?_eq_some_iff.1 (beq_iff_eq.1 h)
  have hrun : cs.takeWhile (· == '\r') =
      List.replicate (cs.takeWhile (· == '\r')).length '\r' :=
    List.eq_replicate_of_mem fun c hc ↦ by simpa using List.mem_takeWhile_imp hc
  refine ⟨(cs.takeWhile (· == '\r')).length, rest, ?_⟩
  rw [← hrun, ← hrest, List.takeWhile_append_dropWhile]

/-- The end of a line ends a line comment. -/
theorem commentBody_of_endsLine {body rest : List Char} (h : commentBody (body ++ rest) = body)
    {rest' : List Char} (hline : endsLine rest' = true) : commentBody (body ++ rest') = body := by
  obtain ⟨hbody, htrim⟩ := commentBody_spec h
  obtain ⟨n, after, rfl⟩ := exists_of_endsLine hline
  have htake : (body ++ (List.replicate n '\r' ++ '\n' :: after)).takeWhile (· != '\n') =
      body ++ List.replicate n '\r' := by
    rw [← List.append_assoc, List.takeWhile_append_of_pos]
    · simp
    · intro c hc
      rcases List.mem_append.1 hc with hc | hc
      · simpa using fun heq : c = '\n' ↦ hbody (heq ▸ hc)
      · rw [List.eq_of_mem_replicate hc]
        rfl
  rw [commentBody, htake, trimEnd_append_replicate htrim]

/-- A line comment that ends before a token ends with its line. -/
theorem newline_mem_of_commentBody {body gap rest : List Char} {c : Char}
    (h : commentBody (body ++ (gap ++ c :: rest)) = body) (hc : c ≠ '\n' ∧ c ≠ '\r') :
    '\n' ∈ gap := by
  obtain ⟨hline, -⟩ := commentBody_spec h
  by_contra hgap
  have htake : (body ++ (gap ++ c :: rest)).takeWhile (· != '\n') =
      body ++ (gap ++ c :: rest.takeWhile (· != '\n')) := by
    rw [List.takeWhile_append_of_pos, List.takeWhile_append_of_pos]
    · simp [hc.1]
    · intro d hd
      simpa using fun heq : d = '\n' ↦ hgap (heq ▸ hd)
    · intro d hd
      simpa using fun heq : d = '\n' ↦ hline (heq ▸ hd)
  obtain ⟨n, hn⟩ := exists_eq_trimEnd_append '\r' (body ++ (gap ++ c :: rest.takeWhile (· != '\n')))
  rw [commentBody, htake] at h
  rw [h] at hn
  have hmem : c ∈ List.replicate n '\r' := by
    rw [← List.append_cancel_left hn]
    simp
  exact hc.2 (List.eq_of_mem_replicate hmem)

/-- Nothing but carriage returns stands between a line comment and the end of its line. -/
theorem endsLine_of_commentBody {body gap rest : List Char} {c : Char}
    (h : commentBody (body ++ (gap ++ c :: rest)) = body) (hc : c ≠ '\n' ∧ c ≠ '\r') :
    endsLine gap = true := by
  obtain ⟨hbody, -⟩ := commentBody_spec h
  obtain ⟨before, after, rfl, hfirst⟩ :=
    List.eq_append_cons_of_mem (newline_mem_of_commentBody h hc)
  have htake : (body ++ ((before ++ '\n' :: after) ++ c :: rest)).takeWhile (· != '\n') =
      body ++ before := by
    have hassoc : body ++ ((before ++ '\n' :: after) ++ c :: rest) =
        (body ++ before) ++ '\n' :: (after ++ c :: rest) := by simp
    rw [hassoc, List.takeWhile_append_of_pos]
    · simp
    · intro d hd
      rcases List.mem_append.1 hd with hd | hd
      · simpa using fun heq : d = '\n' ↦ hbody (heq ▸ hd)
      · simpa using fun heq : d = '\n' ↦ hfirst (heq ▸ hd)
  obtain ⟨n, hn⟩ := exists_eq_trimEnd_append '\r' (body ++ before)
  rw [commentBody, htake] at h
  rw [h] at hn
  obtain rfl := List.append_cancel_left hn
  rw [endsLine, List.dropWhile_append_of_pos]
  · rfl
  · intro d hd
    rw [List.eq_of_mem_replicate hd]
    rfl

theorem commentBody_of_newline_mem {body gap rest : List Char}
    (h : commentBody (body ++ (gap ++ rest)) = body) (hgap : '\n' ∈ gap) (rest' : List Char) :
    commentBody (body ++ (gap ++ rest')) = body := by
  obtain ⟨before, after, rfl⟩ := List.append_of_mem hgap
  have htake (r : List Char) : (body ++ ((before ++ '\n' :: after) ++ r)).takeWhile (· != '\n') =
      (body ++ before ++ ['\n']).takeWhile (· != '\n') := by
    have hassoc : body ++ ((before ++ '\n' :: after) ++ r) =
        (body ++ before ++ ['\n']) ++ (after ++ r) := by simp
    rw [hassoc, List.takeWhile_append, if_neg]
    intro hlen
    have hall := (List.takeWhile_sublist (· != '\n')).eq_of_length hlen
    have hmem : '\n' ∈ (body ++ before ++ ['\n']).takeWhile (· != '\n') := by
      rw [hall]
      simp
    simpa using List.mem_takeWhile_imp hmem
  rw [commentBody, htake] at h ⊢
  exact h

theorem splitAtFirst?_block {body rest : List Char}
    (h : splitAtFirst? ['*', '/'] (body ++ '*' :: '/' :: rest) = some (body, rest))
    (rest' : List Char) :
    splitAtFirst? ['*', '/'] (body ++ '*' :: '/' :: rest') = some (body, rest') :=
  splitAtFirst?_append (by simp) h rest'

/-! ### What a gap depends on -/

namespace Gap

variable {sameLine : Bool} {ps qs : List TriviaPiece} {after : List Char}

theorem stops_after (h : Gap sameLine ps after) : stops sameLine after = true := by
  induction h with
  | stop h => exact h
  | blank _ _ ih | lineBreak _ _ _ ih | lineComment _ _ ih | blockComment _ _ ih => exact ih

/-- Any other gap may follow where a token followed. -/
theorem append (h : Gap false ps after) (hne : after ≠ []) {after' : List Char}
    (hqs : Gap false qs after') : Gap false (ps ++ qs) after' := by
  induction h with
  | stop => exact hqs
  | blank hp _ ih => exact .blank hp (ih hne)
  | lineBreak hp hline _ ih => exact .lineBreak hp hline (ih hne)
  | @lineComment body ps after hbody h ih =>
    obtain ⟨c, rest, rfl⟩ := List.exists_cons_of_ne_nil hne
    have hfirst := h.stops_after
    simp only [stops, Bool.false_or, Bool.and_eq_true, bne_iff_ne] at hfirst
    have hmem := newline_mem_of_commentBody hbody hfirst.1.2
    have hbody' : commentBody (body ++ (chars (ps ++ qs) ++ after')) = body := by
      rw [chars_append, List.append_assoc]
      exact commentBody_of_newline_mem hbody hmem _
    exact .lineComment hbody' (ih hne)
  | blockComment hbody _ ih => exact .blockComment (splitAtFirst?_block hbody _) (ih hne)

/-- A gap before a token is a gap before any other token. -/
theorem of_stops (h : Gap false ps after) (hne : after ≠ []) {after' : List Char}
    (hstop : stops false after' = true) : Gap false ps after' := by
  simpa using h.append hne (.stop hstop)

/-- No line break stands in the trivia after a token, so a line comment is the last of it. -/
theorem eq_nil_of_commentBody (h : Gap true ps after) {body : List Char}
    (hbody : commentBody (body ++ (chars ps ++ after)) = body) : ps = [] := by
  have hfirst {c : Char} {cs : List Char} (hc : c ≠ '\n' ∧ c ≠ '\r')
      (hbody : commentBody (body ++ c :: cs) = body) : False := by
    simpa using @newline_mem_of_commentBody body [] cs c hbody hc
  cases h with
  | stop => rfl
  | blank hp _ =>
    rcases hp with rfl | rfl
    · exact (hfirst (c := ' ') (by decide) hbody).elim
    · exact (hfirst (c := '\t') (by decide) hbody).elim
  | lineBreak _ hline _ => simp at hline
  | lineComment =>
    simp only [chars_cons, TriviaPiece.text, String.toList_ofList, List.cons_append] at hbody
    exact (hfirst (by decide) hbody).elim
  | blockComment =>
    simp only [chars_cons, TriviaPiece.text, String.toList_ofList, List.cons_append] at hbody
    exact (hfirst (by decide) hbody).elim

/-- The trivia after a token stays the same before the end of any line. -/
theorem of_endsLine (h : Gap true ps after) {after' : List Char}
    (hline : endsLine after' = true) : Gap true ps after' := by
  induction h with
  | stop =>
    obtain ⟨n, rest, rfl⟩ := exists_of_endsLine hline
    cases n <;> exact .stop (by simp [stops, opensComment, List.replicate_succ])
  | blank hp _ ih => exact .blank hp ih
  | lineBreak _ hline _ _ => simp at hline
  | lineComment hbody hgap ih =>
    obtain rfl := hgap.eq_nil_of_commentBody hbody
    exact .lineComment (commentBody_of_endsLine hbody hline) ih
  | blockComment hbody _ ih => exact .blockComment (splitAtFirst?_block hbody _) ih

/-- The line of a line comment after a token ends before the next token. -/
theorem endsLine_of_mem {text : String} {gap rest : List Char} {c : Char}
    (h : Gap true ps (gap ++ c :: rest)) (hmem : .lineComment text ∈ ps)
    (hc : c ≠ '\n' ∧ c ≠ '\r') : Trivia.endsLine gap = true := by
  generalize hafter : gap ++ c :: rest = after at h
  induction h with
  | stop => simp at hmem
  | blank hp _ ih =>
    refine ih ((List.mem_cons.1 hmem).resolve_left ?_) hafter
    rintro rfl
    simp at hp
  | lineBreak _ hline _ _ => simp at hline
  | lineComment hbody hgap _ =>
    obtain rfl := hgap.eq_nil_of_commentBody hbody
    subst hafter
    exact endsLine_of_commentBody hbody hc
  | blockComment _ _ ih => exact ih ((List.mem_cons.1 hmem).resolve_left (by simp)) hafter

/-- Without a line comment any other gap may follow in the trivia after a token. -/
theorem append_of_no_lineComment (h : Gap true ps after) (hps : ∀ text, .lineComment text ∉ ps)
    {after' : List Char} (hqs : Gap true qs after') : Gap true (ps ++ qs) after' := by
  induction h with
  | stop => exact hqs
  | blank hp _ ih => exact .blank hp (ih fun text hmem ↦ hps text (List.mem_cons_of_mem _ hmem))
  | lineBreak _ hline _ _ => simp at hline
  | lineComment => exact absurd List.mem_cons_self (hps _)
  | blockComment hbody _ ih =>
    exact .blockComment (splitAtFirst?_block hbody _)
      (ih fun text hmem ↦ hps text (List.mem_cons_of_mem _ hmem))

/-- Without a line comment the trivia after a token stays the same before anything else. -/
theorem of_no_lineComment (h : Gap true ps after) (hps : ∀ text, .lineComment text ∉ ps)
    {after' : List Char} (hstop : stops true after' = true) : Gap true ps after' := by
  simpa using h.append_of_no_lineComment hps (.stop hstop)

/-- The trivia after a token and the trivia before the next one make one gap. -/
theorem join (h : Gap true ps (chars qs ++ after)) (hqs : Gap false qs after) :
    Gap false (ps ++ qs) after := by
  generalize hcs : chars qs ++ after = cs at h
  induction h with
  | stop => exact hqs
  | blank hp _ ih => exact .blank hp (ih hcs)
  | lineBreak _ hline _ _ => simp at hline
  | @lineComment body ps _ hbody _ ih =>
    have hbody' : commentBody (body ++ (chars (ps ++ qs) ++ after)) = body := by
      rwa [chars_append, List.append_assoc, hcs]
    exact .lineComment hbody' (ih hcs)
  | blockComment hbody _ ih => exact .blockComment (splitAtFirst?_block hbody _) (ih hcs)

/-- A gap is divided at its first line break. -/
theorem divide (h : Gap false ps after) : ∃ qs rs, ps = qs ++ rs ∧
    Gap true qs (chars rs ++ after) ∧ Gap false rs after := by
  induction h with
  | @stop after h =>
    refine ⟨[], [], rfl, .stop ?_, .stop h⟩
    cases after with
    | nil => rfl
    | cons c cs =>
      simp only [stops, Bool.and_eq_true] at h
      simp [stops, h]
  | blank hp _ ih =>
    obtain ⟨qs, rs, rfl, hqs, hrs⟩ := ih
    exact ⟨_ :: qs, rs, rfl, .blank hp hqs, hrs⟩
  | lineBreak hp _ h _ =>
    refine ⟨[], _, rfl, .stop ?_, .lineBreak hp rfl h⟩
    rcases hp with rfl | rfl <;> rfl
  | lineComment hbody _ ih =>
    obtain ⟨qs, rs, rfl, hqs, hrs⟩ := ih
    rw [chars_append, List.append_assoc] at hbody
    exact ⟨_ :: qs, rs, rfl, .lineComment hbody hqs, hrs⟩
  | blockComment hbody _ ih =>
    obtain ⟨qs, rs, rfl, hqs, hrs⟩ := ih
    exact ⟨_ :: qs, rs, rfl, .blockComment (splitAtFirst?_block hbody _) hqs, hrs⟩

/-- Blanks and comments on the line of the token before belong to that token. -/
theorem head_eq_of_stops (h : Gap false ps after) (hstop : stops true (chars ps ++ after) = true) :
    ∀ c ∈ (chars ps).head?, c = '\n' ∨ c = '\r' := by
  cases h with
  | stop => simp
  | blank hp _ => rcases hp with rfl | rfl <;> simp [TriviaPiece.text, stops] at hstop
  | lineBreak hp _ _ => rcases hp with rfl | rfl <;> simp [TriviaPiece.text]
  | lineComment | blockComment =>
    simp [TriviaPiece.text, stops, opensComment] at hstop

end Gap

/-- The trivia is exactly what is read before `after`. -/
def ReadsBefore (sameLine : Bool) (t : Trivia) (after : List Char) : Prop :=
  ∃ ps, t = ofPieces ps ∧ Gap sameLine ps after

theorem readsBefore_iff {sameLine : Bool} {t : Trivia} {after : List Char} :
    t.ReadsBefore sameLine after ↔
      scan sameLine .empty (t.text.toList ++ after) = .ok (t, after) := by
  constructor
  · rintro ⟨ps, rfl, hgap⟩
    rw [toList_text_ofPieces]
    exact scan_of_gap hgap .empty
  · intro h
    obtain ⟨ps, -, rfl, hgap⟩ := gap_of_scan h
    exact ⟨ps, rfl, hgap⟩

end EnumForge.Trivia
