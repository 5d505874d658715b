import EnumForge.Proofs.Token.Tiling

/-!
# Tokens and lines

A token lies on one line, string literals apart: three quotes open a literal of several lines, and
in a literal opened by one quote a backslash takes any character with it, a line break too.  A
literal of one line that ends neither on its line nor in such a line break is reported where it
starts.
-/

namespace EnumForge

open Text (LineColumn byteSize isWordPart isWordStart)

namespace Lexeme

/-- The text of a literal opened by three quotes, or the text from such a literal on. -/
def opensTriple (text : List Char) : Bool :=
  ['\x22', '\x22', '\x22'].isPrefixOf (text.dropWhile (· == '#'))

/-- What stands between the quotes of a literal that one quote opens: a line break only behind a
backslash. -/
inductive Quoted : List Char → Prop where
  | nil : Quoted []
  | plain {c : Char} {cs : List Char} (hc : c ≠ '\\' ∧ c ≠ '\x22' ∧ c ≠ '\n') (h : Quoted cs) :
    Quoted (c :: cs)
  | escape {c : Char} {cs : List Char} (h : Quoted cs) : Quoted ('\\' :: c :: cs)

theorem closeQuote?_of_quoted {inner : List Char} (h : Quoted inner) (rest : List Char) :
    closeQuote? (inner ++ '\x22' :: rest) = some (inner ++ ['\x22'], rest) := by
  induction h with
  | nil => rfl
  | plain hc h ih =>
    rw [List.cons_append, closeQuote?.eq_6 _ _ hc.1 hc.2.1 hc.2.2, ih]
    rfl
  | escape h ih =>
    rw [List.cons_append, List.cons_append, closeQuote?, ih]
    rfl

theorem quoted_of_closeQuote? {cs tail rest : List Char} (h : closeQuote? cs = some (tail, rest)) :
    ∃ inner, Quoted inner ∧ tail = inner ++ ['\x22'] ∧ cs = inner ++ '\x22' :: rest := by
  fun_induction closeQuote? cs generalizing tail rest with
  | case1 | case2 | case5 => simp at h
  | case3 c cs ih =>
    obtain ⟨⟨b, r⟩, hs, he⟩ := Option.map_eq_some_iff.1 h
    simp only [Prod.mk.injEq] at he
    obtain ⟨rfl, rfl⟩ := he
    obtain ⟨inner, hinner, rfl, rfl⟩ := ih hs
    exact ⟨'\\' :: c :: inner, .escape hinner, rfl, rfl⟩
  | case4 cs =>
    simp only [Option.some.injEq, Prod.mk.injEq] at h
    obtain ⟨rfl, rfl⟩ := h
    exact ⟨[], .nil, rfl, rfl⟩
  | case6 c cs hslash hquote hline ih =>
    obtain ⟨⟨b, r⟩, hs, he⟩ := Option.map_eq_some_iff.1 h
    simp only [Prod.mk.injEq] at he
    obtain ⟨rfl, rfl⟩ := he
    obtain ⟨inner, hinner, rfl, rfl⟩ := ih hs
    exact ⟨c :: inner, .plain ⟨hslash, hquote, hline⟩ hinner, rfl, rfl⟩

/-- The first line break of a quoted text stands behind a backslash that nothing escapes. -/
theorem Quoted.exists_break {inner : List Char} (h : Quoted inner) (hbreak : '\n' ∈ inner) :
    ∃ before after, inner = before ++ '\\' :: '\n' :: after ∧ '\n' ∉ before ∧ Quoted before := by
  induction h with
  | nil => simp at hbreak
  | @plain c cs hc h ih =>
    obtain ⟨before, after, rfl, hline, hbefore⟩ :=
      ih ((List.mem_cons.1 hbreak).resolve_left (Ne.symm hc.2.2))
    exact ⟨c :: before, after, rfl, by simp [Ne.symm hc.2.2, hline], .plain hc hbefore⟩
  | @escape c cs h ih =>
    by_cases hc : c = '\n'
    · exact ⟨[], cs, by rw [hc]; rfl, by simp, .nil⟩
    · obtain ⟨before, after, rfl, hline, hbefore⟩ := ih (by simpa [Ne.symm hc] using hbreak)
      exact ⟨'\\' :: c :: before, after, rfl, by simp [Ne.symm hc, hline], .escape hbefore⟩

/-! ### Tokens of several lines -/

theorem not_mem_of_closeOnLine? {delimiter cs tail rest : List Char}
    (h : closeOnLine? delimiter cs = some (tail, rest)) (hdelimiter : '\n' ∉ delimiter) :
    '\n' ∉ tail := by
  obtain ⟨⟨b, r⟩, -, he⟩ := Option.bind_eq_some_iff.1 h
  dsimp only at he
  split at he
  · simp at he
  next hline =>
    simp only [Option.some.injEq, Prod.mk.injEq] at he
    obtain ⟨rfl, -⟩ := he
    simpa [hdelimiter] using hline

theorem not_mem_numberTail (cs : List Char) : '\n' ∉ (numberTail cs).1 := by
  fun_induction numberTail cs with
  | case1 | case3 => simp
  | case2 c cs hc tail rest htail ih =>
    rw [htail] at ih
    have hne : '\n' ≠ c := by
      rintro rfl
      simp [isNumberPart] at hc
    simp [hne, ih]

theorem not_mem_operatorTail (cs : List Char) : '\n' ∉ (operatorTail cs).1 := by
  fun_induction operatorTail cs with
  | case1 | case3 => simp
  | case2 c cs hc tail rest htail ih =>
    rw [htail] at ih
    have hne : '\n' ≠ c := by
      rintro rfl
      simp [isOperatorChar] at hc
    simp [hne, ih]

theorem not_mem_of_wordTail {tail after : List Char}
    (h : wordTail (tail ++ after) = (tail, after)) : '\n' ∉ tail := by
  intro hmem
  have hpart := (wordTail_eq_iff.1 h).1 _ hmem
  revert hpart
  decide

theorem opensTriple_append {hashes : List Char} (h : ∀ d ∈ hashes, (d == '#') = true)
    (cs : List Char) : opensTriple (hashes ++ cs) = opensTriple cs := by
  rw [opensTriple, List.dropWhile_append_of_pos h, opensTriple]

theorem closeString?_of_break {tail after : List Char}
    (h : closeString? (tail ++ after) = some (tail, after)) :
    opensTriple ('\x22' :: tail) = true ∨ ∃ inner, Quoted inner ∧ tail = inner ++ ['\x22'] := by
  unfold closeString? at h
  split at h
  · obtain ⟨⟨b, r⟩, -, he⟩ := Option.map_eq_some_iff.1 h
    simp only [Prod.mk.injEq] at he
    obtain ⟨rfl, -⟩ := he
    exact .inl rfl
  · obtain ⟨inner, hinner, htail, -⟩ := quoted_of_closeQuote? h
    exact .inr ⟨inner, hinner, htail⟩

theorem closeRawString?_of_break {hashes tail after : List Char}
    (hhashes : ∀ d ∈ hashes, (d == '#') = true)
    (h : closeRawString? hashes (tail ++ after) = some (tail, after)) (hbreak : '\n' ∈ tail) :
    opensTriple ('\x22' :: tail) = true := by
  unfold closeRawString? at h
  split at h
  · obtain ⟨⟨b, r⟩, -, he⟩ := Option.map_eq_some_iff.1 h
    simp only [Prod.mk.injEq] at he
    obtain ⟨rfl, -⟩ := he
    rfl
  · refine absurd hbreak (not_mem_of_closeOnLine? h ?_)
    intro hmem
    obtain hmem | hmem := List.mem_cons.1 hmem
    · cases hmem
    · cases hhashes _ hmem

/-- A token with a line break is a string literal: one that three quotes open, or one in which
backslashes stand before the line breaks. -/
theorem Rule.of_break {c : Char} {kind : TokenKind} {tail after : List Char}
    (h : Rule c kind tail after) (hbreak : '\n' ∈ c :: tail) :
    kind = .stringLiteral ∧ (opensTriple (c :: tail) = true ∨
      ∃ inner, Quoted inner ∧ c :: tail = '\x22' :: (inner ++ ['\x22'])) := by
  obtain rfl | hbreak := List.mem_cons.1 hbreak
  · -- No rule starts with a line break.
    cases h with
    | string hc | ticked hc | rawString hc | directive hc | hash hc => cases hc
    | word hc | number _ hc | operator hc => exact absurd hc (by decide)
    | punctuation hc => exact absurd ((Option.isSome_of_eq_some hc)) (by decide)
  cases h with
  | string hc h =>
    rw [hc]
    refine ⟨rfl, (closeString?_of_break h).imp_right ?_⟩
    rintro ⟨inner, hinner, rfl⟩
    exact ⟨inner, hinner, rfl⟩
  | ticked hc h => exact absurd hbreak (not_mem_of_closeOnLine? h (by decide))
  | word hc h => exact absurd hbreak (not_mem_of_wordTail h)
  | number hword hc h =>
    have htail := not_mem_numberTail (tail ++ after)
    rw [h] at htail
    exact absurd hbreak htail
  | @rawString hashes body _ hc hhashes h =>
    rw [hc]
    refine ⟨rfl, .inl ?_⟩
    have hbody : '\n' ∈ body := by
      obtain hmem | hmem := List.mem_append.1 hbreak
      · cases hhashes _ hmem
      · simpa using hmem
    rw [← List.cons_append, opensTriple_append (by simpa using hhashes)]
    exact closeRawString?_of_break (by simpa using hhashes) h hbody
  | directive hc hword h => exact absurd hbreak (not_mem_of_wordTail h)
  | hash hc hraw hword => cases hbreak
  | punctuation hc => cases hbreak
  | operator hc h =>
    have htail := not_mem_operatorTail (tail ++ after)
    rw [h] at htail
    exact absurd hbreak htail

/-! ### Literals that do not end -/

/-- The rest of the line. -/
def line (cs : List Char) : List Char := cs.takeWhile (· != '\n')

theorem line_append {cs : List Char} (h : '\n' ∉ cs) (ds : List Char) :
    line (cs ++ ds) = cs ++ line ds := by
  refine List.takeWhile_append_of_pos fun c hc ↦ ?_
  rw [bne_iff_ne]
  rintro rfl
  exact h hc

/-- `Unclosed cs`: a literal of one line starts here, and its line does not close it.  A plain one
is closed by a quote that no backslash escapes, a raw one by a quote with as many hashes as opened
it.  A plain literal whose line ends within an escape goes on. -/
inductive Unclosed : List Char → Prop where
  | plain {cs : List Char} (hopen : ¬['\x22', '\x22'] <+: cs)
      (hclose : ∀ inner after, line cs = inner ++ '\x22' :: after → ¬Quoted inner)
      (hescape : ∀ inner after, cs = inner ++ '\\' :: '\n' :: after → '\n' ∉ inner →
        ¬Quoted inner) :
      Unclosed ('\x22' :: cs)
  | raw {hashes cs : List Char} (hhashes : ∀ d ∈ hashes, d = '#')
      (hopen : ¬['\x22', '\x22'] <+: cs) (hclose : ¬('\x22' :: '#' :: hashes) <:+: line cs) :
      Unclosed ('#' :: (hashes ++ '\x22' :: cs))

theorem closeQuote?_eq_none {cs : List Char}
    (hclose : ∀ inner after, line cs = inner ++ '\x22' :: after → ¬Quoted inner)
    (hescape : ∀ inner after, cs = inner ++ '\\' :: '\n' :: after → '\n' ∉ inner →
      ¬Quoted inner) : closeQuote? cs = none := by
  refine Option.eq_none_iff_forall_ne_some.2 fun ⟨tail, rest⟩ h ↦ ?_
  obtain ⟨inner, hinner, -, rfl⟩ := quoted_of_closeQuote? h
  by_cases hbreak : '\n' ∈ inner
  · obtain ⟨before, after, rfl, hline, hbefore⟩ := hinner.exists_break hbreak
    exact hescape before (after ++ '\x22' :: rest) (by simp) hline hbefore
  · exact hclose inner (line rest) (line_append hbreak _) hinner

theorem closeOnLine?_eq_none {delimiter cs : List Char} (hdelimiter : '\n' ∉ delimiter)
    (h : ¬delimiter <:+: line cs) : closeOnLine? delimiter cs = none := by
  refine Option.eq_none_iff_forall_ne_some.2 fun ⟨tail, rest⟩ hclose ↦ h ?_
  have hline := not_mem_of_closeOnLine? hclose hdelimiter
  have hcs := append_of_closeOnLine? hclose
  obtain ⟨⟨b, r⟩, -, he⟩ := Option.bind_eq_some_iff.1 hclose
  dsimp only at he
  split at he
  · simp at he
  simp only [Option.some.injEq, Prod.mk.injEq] at he
  obtain ⟨rfl, rfl⟩ := he
  rw [← hcs, line_append hline]
  exact ⟨b, line r, by simp⟩

/-- A literal that its line does not close is no token. -/
theorem cut_of_unclosed {c : Char} {cs : List Char} (h : Unclosed (c :: cs)) :
    cut c cs = .error .unterminatedString := by
  generalize hlist : c :: cs = list at h
  cases h with
  | @plain cs' hopen hclose hescape =>
    obtain ⟨rfl, rfl⟩ := List.cons.inj hlist
    have hstring : closeString? cs = closeQuote? cs :=
      closeString?.eq_2 cs fun after hquotes ↦ hopen ⟨after, hquotes.symm⟩
    rw [cut, if_pos rfl, hstring, closeQuote?_eq_none hclose hescape]
  | @raw hashes cs' hhashes hopen hclose =>
    obtain ⟨rfl, rfl⟩ := List.cons.inj hlist
    have hall : ∀ d ∈ hashes, (d == '#') = true := fun d hd ↦ beq_iff_eq.2 (hhashes d hd)
    have hraw : closeRawString? ('#' :: hashes) cs' = none := by
      rw [closeRawString?.eq_2 _ cs' fun after hquotes ↦ hopen ⟨after, hquotes.symm⟩]
      refine closeOnLine?_eq_none ?_ hclose
      intro hmem
      have hhash : '\n' ∈ hashes := by simpa using hmem
      exact absurd (hhashes _ hhash) (by decide)
    have htake : (hashes ++ '\x22' :: cs').takeWhile (· == '#') = hashes := by
      rw [List.takeWhile_append_of_pos hall]
      simp
    have hdrop : (hashes ++ '\x22' :: cs').dropWhile (· == '#') = '\x22' :: cs' := by
      rw [List.dropWhile_append_of_pos hall]
      simp
    rw [cut_pound, cutPound, htake, hdrop]
    simp only [hraw]

end Lexeme

/-! ### Where tokens start -/

namespace TokenStream

/-- `Reaches cs leading rest`: the lexer gets to `rest` in the text `cs`, behind the trivia
`leading`, and cuts the next token there. -/
inductive Reaches (cs : List Char) : Trivia → List Char → Prop where
  | first {leading : Trivia} {rest : List Char}
      (h : Trivia.scan false (startTrivia cs).1 (startTrivia cs).2 = .ok (leading, rest)) :
      Reaches cs leading rest
  | next {leading next : Trivia} {c : Char} {tail mid rest : List Char} {t : Token}
      (h : Reaches cs leading (c :: tail)) (htoken : nextToken leading c tail = .ok (t, mid))
      (hnext : Trivia.scan false .empty mid = .ok (next, rest)) : Reaches cs next rest

/-- A failure after a token is a failure. -/
theorem cut_eq_error_of_next {leading next : Trivia} {c : Char} {tail mid rest : List Char}
    {t : Token} {e : ParseError (List Char)} (htoken : nextToken leading c tail = .ok (t, mid))
    (hnext : Trivia.scan false .empty mid = .ok (next, rest)) (he : cut next rest = .error e) :
    cut leading (c :: tail) = .error e := by
  rw [cut, htoken]
  dsimp only
  rw [scanTrivia_eq_ok.2 hnext]
  dsimp only
  rw [he]

/-- The lexer fails at the first place where it cannot go on. -/
theorem Reaches.cutAll_eq_error {cs rest : List Char} {leading : Trivia}
    (h : Reaches cs leading rest) {e : ParseError (List Char)} (he : cut leading rest = .error e) :
    cutAll cs = .error e := by
  induction h with
  | first h =>
    rcases hstart : startTrivia cs with ⟨mark, after⟩
    rw [hstart] at h
    rw [cutAll, hstart]
    dsimp only
    rw [h]
    exact he
  | next _ htoken hnext ih => exact ih (cut_eq_error_of_next htoken hnext he)

theorem cut_of_unclosed {leading : Trivia} {c : Char} {cs : List Char}
    (h : Lexeme.Unclosed (c :: cs)) :
    cut leading (c :: cs) = .error (.unterminatedString (c :: cs)) := by
  have htoken : nextToken leading c cs = .error (.unterminatedString (c :: cs)) := by
    rw [nextToken, Lexeme.cut_of_unclosed h]
    rfl
  rw [cut, htoken]

end TokenStream

/-- The token starts and ends on one line, or is a string literal of one of two forms. -/
def Token.OnLines (t : Token) : Prop :=
  '\n' ∉ t.text.toList ∨ t.kind = .stringLiteral ∧ (Lexeme.opensTriple t.text.toList = true ∨
    ∃ inner, Lexeme.Quoted inner ∧ t.text.toList = '\x22' :: (inner ++ ['\x22']))

theorem Token.CutBefore.onLines {t : Token} {after : List Char} (h : t.CutBefore after) :
    t.OnLines := by
  obtain ⟨c, tail, htext, hrule⟩ := h
  rw [OnLines, htext]
  by_cases hbreak : '\n' ∈ c :: tail
  · exact .inr (hrule.of_break hbreak)
  · exact .inl hbreak

theorem TokenStream.onLines_of_ofSource {source : String} {s : TokenStream}
    (h : ofSource source = .ok s) : ∀ t ∈ s.toList, t.OnLines := by
  obtain ⟨u, us, hus, hspelled, -⟩ := spelled_of_ofSource h
  intro t ht
  obtain ht | ht := List.mem_append.1 ht
  · have hkind := (standsAlone_of_ofSource h t ht).kind_ne
    obtain ⟨after, hcut⟩ :=
      Token.exists_cutBefore_of_mem (hus ▸ hspelled) (List.mem_append_left _ ht) hkind
    exact hcut.onLines
  · obtain rfl := List.mem_singleton.1 ht
    obtain ⟨-, htext, -⟩ := spelled_endOfFile h
    exact .inl (by simp [htext])

theorem tokenize_of_unclosed {source : String} {before rest : List Char} {leading : Trivia}
    (hsource : source.toList = before ++ rest)
    (hreach : TokenStream.Reaches source.toList leading rest) (hunclosed : Lexeme.Unclosed rest) :
    tokenize source = .error (.unterminatedString (.ofOffset source (byteSize before))) := by
  obtain ⟨c, cs, rfl⟩ : ∃ c cs, rest = c :: cs := by
    cases hunclosed <;> exact ⟨_, _, rfl⟩
  have hall := hreach.cutAll_eq_error (TokenStream.cut_of_unclosed hunclosed)
  have hsize : source.utf8ByteSize - byteSize (c :: cs) = byteSize before := by
    rw [← Text.byteSize_toList, hsource, Text.byteSize_append, Nat.add_sub_cancel]
  rw [tokenize, TokenStream.ofSource, hall]
  simp only [ParseError.map, ParseError.locate, hsize]

/-- Every token lies on one line, unless it is a literal opened by three quotes or a backslash
stands before its line breaks; and where a literal of one line starts that its line does not close,
the source is refused. -/
theorem tokenize_onLines (source : String) :
    (∀ ts, tokenize source = .ok ts → ∀ t ∈ ts, t.OnLines) ∧
    ∀ before rest leading, source.toList = before ++ rest →
      TokenStream.Reaches source.toList leading rest → Lexeme.Unclosed rest →
      tokenize source = .error (.unterminatedString (.ofOffset source (byteSize before))) := by
  refine ⟨fun ts h ↦ ?_, fun before rest leading ↦ tokenize_of_unclosed⟩
  obtain ⟨s, hs, rfl⟩ := tokenize_eq_ok.1 h
  exact TokenStream.onLines_of_ofSource hs

/-- A backslash at the end of the line keeps the literal open. -/
def brokenLiteral : String := "\"a\\\nb\""

/-- Three quotes are not the only ones that open a literal of several lines. -/
theorem not_opensTriple_brokenLiteral :
    ¬∀ source ts, tokenize source = .ok ts → ∀ t ∈ ts, '\n' ∈ t.text.toList →
      t.kind = .stringLiteral ∧ Lexeme.opensTriple t.text.toList = true := by
  intro h
  have htokens : tokenize brokenLiteral = .ok ((tokenize brokenLiteral).toOption.getD []) := by
    decide +kernel
  have hbroken : ∃ t ∈ (tokenize brokenLiteral).toOption.getD [],
      '\n' ∈ t.text.toList ∧ Lexeme.opensTriple t.text.toList = false := by
    decide +kernel
  obtain ⟨t, ht, hbreak, hopens⟩ := hbroken
  rw [(h _ _ htokens t ht hbreak).2] at hopens
  cases hopens

/-- A literal that its line does not close, behind a name. -/
def tornLiteral : String := "x \"b\n\""

theorem tokenize_onLines_tornLiteral :
    (∃ ts, tokenize brokenLiteral = .ok ts ∧ ∀ t ∈ ts, t.OnLines) ∧
    tokenize tornLiteral = .error (.unterminatedString ⟨1, 3⟩) := by
  have htokens : tokenize brokenLiteral = .ok ((tokenize brokenLiteral).toOption.getD []) := by
    decide +kernel
  refine ⟨⟨_, htokens, (tokenize_onLines brokenLiteral).1 _ htokens⟩, ?_⟩
  have hlist : tornLiteral.toList = ['x', ' ', '\x22', 'b', '\n', '\x22'] := by decide +kernel
  have hfirst : TokenStream.Reaches tornLiteral.toList .empty
      ('x' :: [' ', '\x22', 'b', '\n', '\x22']) := by
    rw [hlist]
    exact .first (by decide +kernel)
  have htoken : TokenStream.nextToken .empty 'x' [' ', '\x22', 'b', '\n', '\x22'] =
      .ok (⟨.identifier, "x", .empty, .ofPieces [.spaces 1], none⟩,
        ['\x22', 'b', '\n', '\x22']) := by
    decide +kernel
  have hreach : TokenStream.Reaches tornLiteral.toList .empty ['\x22', 'b', '\n', '\x22'] :=
    hfirst.next htoken (by decide +kernel)
  have hunclosed : Lexeme.Unclosed ['\x22', 'b', '\n', '\x22'] := by
    refine .plain (by decide) (fun inner after hline ↦ ?_) (fun inner after hcs ↦ ?_)
    · have hmem : '\x22' ∈ Lexeme.line ['b', '\n', '\x22'] := by simp [hline]
      exact absurd hmem (by decide)
    · have hmem : '\\' ∈ ['b', '\n', '\x22'] := by simp [hcs]
      exact absurd hmem (by decide)
  have hplace : LineColumn.ofOffset tornLiteral (byteSize ['x', ' ']) = ⟨1, 3⟩ := by decide +kernel
  have herror := (tokenize_onLines tornLiteral).2 ['x', ' '] _ _ hlist hreach hunclosed
  rwa [hplace] at herror

end EnumForge
