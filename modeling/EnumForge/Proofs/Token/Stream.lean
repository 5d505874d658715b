import EnumForge.Grammar.Clause
import EnumForge.Token.Lexer

/-!
# What a token stream is made of

One step of the lexer takes a token, its trailing trivia and the leading trivia of the next one.
The steps are inverted here once; every statement about a whole stream goes through them.  The
first of these is that the texts of the tokens, put together, are the source.
-/

namespace EnumForge

/-- The characters of tokens, all trivia included. -/
def Token.listChars (ts : List Token) : List Char := ts.flatMap fun t ↦ t.source.toList

namespace Token

@[simp] theorem listChars_nil : listChars [] = [] := rfl

@[simp] theorem listChars_cons (t : Token) (ts : List Token) :
    listChars (t :: ts) =
      t.leading.text.toList ++ (t.text.toList ++ (t.trailing.text.toList ++ listChars ts)) := by
  simp [listChars, source]

@[simp] theorem listChars_append (ts us : List Token) :
    listChars (ts ++ us) = listChars ts ++ listChars us := by
  simp [listChars]

end Token

theorem Node.toList_source {α : Type} [Node α] (a : α) :
    (Node.source a).toList = Token.listChars (Node.tokens a) := by
  rw [Node.source, String.toList_join, Token.listChars, List.flatMap_map]

namespace TokenStream

theorem scanTrivia_eq_ok {sameLine : Bool} {cs rest : List Char} {t : Trivia} :
    scanTrivia sameLine cs = .ok (t, rest) ↔ Trivia.scan sameLine .empty cs = .ok (t, rest) := by
  exact mapError_eq_ok

/-- A token and its trailing trivia. -/
theorem nextToken_eq_ok {leading : Trivia} {c : Char} {cs rest : List Char} {t : Token} :
    nextToken leading c cs = .ok (t, rest) ↔
      ∃ kind tail after trailing, Lexeme.cut c cs = .ok (kind, tail, after) ∧
        Trivia.scan true .empty after = .ok (trailing, rest) ∧
        t = { kind, text := String.ofList (c :: tail), leading, trailing } := by
  constructor
  · intro h
    obtain ⟨⟨kind, tail, after⟩, hcut, h⟩ := bind_eq_ok.1 h
    obtain ⟨⟨trailing, rest'⟩, hscan, h⟩ := bind_eq_ok.1 h
    simp only [pure, Except.pure, Except.ok.injEq, Prod.mk.injEq] at h
    obtain ⟨rfl, rfl⟩ := h
    exact ⟨kind, tail, after, trailing, mapError_eq_ok.1 hcut, scanTrivia_eq_ok.1 hscan, rfl⟩
  · rintro ⟨kind, tail, after, trailing, hcut, hscan, rfl⟩
    apply bind_eq_ok.2
    refine ⟨(kind, tail, after), mapError_eq_ok.2 hcut, ?_⟩
    apply bind_eq_ok.2
    exact ⟨(trailing, rest), scanTrivia_eq_ok.2 hscan, rfl⟩

theorem cut_nil (leading : Trivia) :
    cut leading [] = .ok ⟨[], { kind := .endOfFile, text := "", leading }⟩ := by
  rw [cut]

/-- One step of the lexer. -/
theorem cut_cons_eq_ok {leading : Trivia} {c : Char} {cs : List Char} {s : TokenStream} :
    cut leading (c :: cs) = .ok s ↔
      ∃ t mid next rest s', nextToken leading c cs = .ok (t, mid) ∧
        Trivia.scan false .empty mid = .ok (next, rest) ∧ cut next rest = .ok s' ∧
        s = ⟨t :: s'.tokens, s'.endOfFile⟩ := by
  rw [cut]
  constructor
  · intro h
    split at h
    · simp at h
    next t mid htoken =>
      split at h
      · simp at h
      next next rest hnext =>
        split at h
        · simp at h
        next s' hs' =>
          simp only [Except.ok.injEq] at h
          exact ⟨t, mid, next, rest, s', htoken, scanTrivia_eq_ok.1 hnext, hs', h.symm⟩
  · rintro ⟨t, mid, next, rest, s', htoken, hnext, hs', rfl⟩
    rw [htoken]
    dsimp only
    rw [scanTrivia_eq_ok.2 hnext]
    dsimp only
    rw [hs']

/-- Induction along the steps of the lexer. -/
theorem cut_induction {motive : Trivia → List Char → TokenStream → Prop}
    (nil : ∀ leading, motive leading [] ⟨[], { kind := .endOfFile, text := "", leading }⟩)
    (cons : ∀ leading c cs t mid next rest s, nextToken leading c cs = .ok (t, mid) →
      Trivia.scan false .empty mid = .ok (next, rest) → cut next rest = .ok s →
      motive next rest s → motive leading (c :: cs) ⟨t :: s.tokens, s.endOfFile⟩)
    {leading : Trivia} {cs : List Char} {s : TokenStream} (h : cut leading cs = .ok s) :
    motive leading cs s := by
  induction hn : cs.length using Nat.strongRecOn generalizing leading cs s with
  | ind n ih =>
    cases cs with
    | nil =>
      rw [cut_nil, Except.ok.injEq] at h
      exact h ▸ nil leading
    | cons c cs =>
      obtain ⟨t, mid, next, rest, s', htoken, hnext, hs', rfl⟩ := cut_cons_eq_ok.1 h
      refine cons leading c cs t mid next rest s' htoken hnext hs' (ih _ ?_ hs' rfl)
      have h₁ := length_le_of_nextToken htoken
      have h₂ := Trivia.length_le_of_scan hnext
      simp only [List.length_cons] at hn
      omega

/-! ### No character is lost -/

theorem chars_of_nextToken {leading : Trivia} {c : Char} {cs rest : List Char} {t : Token}
    (h : nextToken leading c cs = .ok (t, rest)) :
    t.leading = leading ∧ t.text.toList ++ (t.trailing.text.toList ++ rest) = c :: cs := by
  obtain ⟨kind, tail, after, trailing, hcut, hscan, rfl⟩ := nextToken_eq_ok.1 h
  have htail := Lexeme.append_of_cut hcut
  have htrivia := Trivia.toList_text_of_scan hscan
  simp only [Trivia.text_empty, String.toList_empty, List.nil_append] at htrivia
  simp [htrivia, htail]

theorem listChars_of_cut {leading : Trivia} {cs : List Char} {s : TokenStream}
    (h : cut leading cs = .ok s) :
    Token.listChars s.toList = leading.text.toList ++ cs := by
  refine cut_induction (motive := fun leading cs s ↦
    Token.listChars s.toList = leading.text.toList ++ cs) ?_ ?_ h
  · intro leading
    simp [toList]
  · intro leading c cs t mid next rest s htoken hnext _ ih
    obtain ⟨hleading, htext⟩ := chars_of_nextToken htoken
    have htrivia := Trivia.toList_text_of_scan hnext
    simp only [Trivia.text_empty, String.toList_empty, List.nil_append] at htrivia
    simp only [toList, List.cons_append, Token.listChars_cons, hleading]
    simp only [toList] at ih
    rw [ih, htrivia, htext]

theorem toList_text_startTrivia (cs : List Char) :
    (startTrivia cs).1.text.toList ++ (startTrivia cs).2 = cs := by
  unfold startTrivia
  split
  · have hmark : (Trivia.ofPieces [.byteOrderMark]).text.toList = ['\uFEFF'] := by decide
    simp [hmark]
  · rfl

theorem cutAll_eq_ok {cs : List Char} {s : TokenStream} :
    cutAll cs = .ok s ↔
      ∃ leading rest,
        Trivia.scan false (startTrivia cs).1 (startTrivia cs).2 = .ok (leading, rest) ∧
          cut leading rest = .ok s := by
  constructor
  · intro h
    obtain ⟨⟨leading, rest⟩, hscan, h⟩ := bind_eq_ok.1 h
    exact ⟨leading, rest, mapError_eq_ok.1 hscan, h⟩
  · rintro ⟨leading, rest, hscan, h⟩
    apply bind_eq_ok.2
    exact ⟨(leading, rest), mapError_eq_ok.2 hscan, h⟩

theorem listChars_of_cutAll {cs : List Char} {s : TokenStream} (h : cutAll cs = .ok s) :
    Token.listChars s.toList = cs := by
  obtain ⟨leading, rest, hscan, hcut⟩ := cutAll_eq_ok.1 h
  rw [listChars_of_cut hcut, Trivia.toList_text_of_scan hscan, toList_text_startTrivia]

/-! ### No token is empty -/

theorem text_ne_empty_of_cut {leading : Trivia} {cs : List Char} {s : TokenStream}
    (h : cut leading cs = .ok s) : ∀ t ∈ s.tokens, t.text ≠ "" := by
  refine cut_induction (motive := fun _ _ s ↦ ∀ t ∈ s.tokens, t.text ≠ "") ?_ ?_ h
  · simp
  · intro leading c cs t mid next rest s htoken _ _ ih
    obtain ⟨kind, tail, after, trailing, _, _, rfl⟩ := nextToken_eq_ok.1 htoken
    refine List.forall_mem_cons.2 ⟨?_, ih⟩
    intro hempty
    simpa using congrArg String.toList hempty

/-! ### Places -/

@[simp] theorem source_placeToken (n : Nat) (t : Token) : (placeToken n t).source = t.source := rfl

theorem map_source_placeTokens (n : Nat) (ts : List Token) :
    (placeTokens n ts).1.map Token.source = ts.map Token.source := by
  induction ts generalizing n with
  | nil => rfl
  | cons t ts ih => simp [placeTokens, ih]

theorem listChars_place (s : TokenStream) :
    Token.listChars s.place.toList = Token.listChars s.toList := by
  have h : s.place.toList.map Token.source = s.toList.map Token.source := by
    simp [toList, place, map_source_placeTokens]
  simp only [Token.listChars, ← List.flatMap_map (f := Token.source)]
  rw [h]

theorem ofSource_eq_ok {source : String} {s : TokenStream} :
    ofSource source = .ok s ↔ ∃ cut, cutAll source.toList = .ok cut ∧ s = cut.place := by
  unfold ofSource
  cases cutAll source.toList with
  | error e => simp
  | ok r => simp [eq_comm]

theorem listChars_of_ofSource {source : String} {s : TokenStream} (h : ofSource source = .ok s) :
    Token.listChars s.toList = source.toList := by
  obtain ⟨c, hcut, rfl⟩ := ofSource_eq_ok.1 h
  rw [listChars_place, listChars_of_cutAll hcut]

theorem map_text_placeTokens (n : Nat) (ts : List Token) :
    (placeTokens n ts).1.map Token.text = ts.map Token.text := by
  induction ts generalizing n with
  | nil => rfl
  | cons t ts ih => exact congrArg (t.text :: ·) (ih _)

theorem text_ne_empty_of_ofSource {source : String} {s : TokenStream}
    (h : ofSource source = .ok s) {t : Token} (ht : t ∈ s.tokens) : t.text ≠ "" := by
  obtain ⟨c, hcut, rfl⟩ := ofSource_eq_ok.1 h
  obtain ⟨leading, rest, _, hcut⟩ := cutAll_eq_ok.1 hcut
  have htext : t.text ∈ c.place.tokens.map Token.text := List.mem_map_of_mem ht
  have hplace : c.place.tokens.map Token.text = c.tokens.map Token.text :=
    map_text_placeTokens 0 c.tokens
  rw [hplace] at htext
  obtain ⟨u, hu, huv⟩ := List.mem_map.1 htext
  exact huv ▸ text_ne_empty_of_cut hcut u hu

end TokenStream

theorem tokenize_eq_ok {source : String} {ts : List Token} :
    tokenize source = .ok ts ↔ ∃ s, TokenStream.ofSource source = .ok s ∧ ts = s.toList := by
  unfold tokenize
  cases TokenStream.ofSource source with
  | error e => simp
  | ok s => simp [eq_comm]

end EnumForge
