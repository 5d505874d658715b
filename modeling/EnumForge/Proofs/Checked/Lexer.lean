import EnumForge.Proofs.Checked.Trivia

/-!
# Cutting tokens by byte positions

The lexer as a program over byte positions: it finds the end of a token, slices its text out of the
source, and goes on behind its trivia until the source is at its end.
-/

namespace EnumForge.Checked

open Text (byteSize isWordPart isWordStart splitAtFirst?)

variable (source : List Char)

/-! ### Literals and runs -/

/-- Up to and with the closing quote of a literal of one line that starts at `start`. -/
def lexQuoted (start : Nat) : Nat → Nat → Guarded Nat
  | 0, _ => fault .endless
  | fuel + 1, pos => do
    let (c, pos) ← bump source pos
    if c = some '\\' then
      let (_, pos) ← bump source pos
      lexQuoted start fuel pos
    else if c = some '\x22' then return pos
    else if c = some '\n' ∨ c = none then refuse (.unterminatedString start)
    else lexQuoted start fuel pos

/-- A string literal after its first quote. -/
def lexString (start pos : Nat) : Guarded Nat := do
  let rest ← sliceFrom pos source
  if ['\x22', '\x22'].isPrefixOf rest then
    match find ['\x22', '\x22', '\x22'] (← sliceFrom (pos + 2) source) with
    | none => refuse (.unterminatedString start)
    | some stop => return pos + 2 + (stop + 3)
  else lexQuoted source start (bound source) pos

/-- A raw string literal after its first hash. -/
def lexRawString (start pos : Nat) : Guarded Nat := do
  let pos ← eatWhile source (· == '#') (bound source) pos
  let hashes := List.replicate (← sub pos start) '#'
  let (_, pos) ← bump source pos
  let rest ← sliceFrom pos source
  if ['\x22', '\x22'].isPrefixOf rest then
    let delimiter := '\x22' :: '\x22' :: '\x22' :: hashes
    match find delimiter (← sliceFrom (pos + 2) source) with
    | none => refuse (.unterminatedString start)
    | some stop => return pos + 2 + (stop + byteSize delimiter)
  else
    let delimiter := '\x22' :: hashes
    match find delimiter rest with
    | none => refuse (.unterminatedString start)
    | some stop =>
      let body ← sliceTo stop rest
      if body.contains '\n' then refuse (.unterminatedString start)
      else return pos + (stop + byteSize delimiter)

/-- An identifier in back-ticks after the first of them. -/
def lexTicked (start pos : Nat) : Guarded Nat := do
  let rest ← sliceFrom pos source
  let unclosed := .unexpectedToken "closing back-tick" "`" start
  match find ['\x60'] rest with
  | none => refuse unclosed
  | some stop =>
    let body ← sliceTo stop rest
    if body.contains '\n' then refuse unclosed else return pos + (stop + 1)

def lexNumber : Nat → Nat → Guarded Nat
  | 0, _ => fault .endless
  | fuel + 1, pos => do
    let pos ← eatWhile source Lexeme.isNumberPart (bound source) pos
    let first ← peek source pos
    let second ← peekSecond source pos
    if first = some '.' ∧ second.any Char.isDigit then
      let (_, pos) ← bump source pos
      lexNumber fuel pos
    else return pos

def lexOperator : Nat → Nat → Guarded Nat
  | 0, _ => fault .endless
  | fuel + 1, pos => do
    match ← peek source pos with
    | none => return pos
    | some c =>
      let second ← peekSecond source pos
      if Lexeme.isOperatorChar c && !(c == '/' && (second == some '/' || second == some '*')) then
        let (_, pos) ← bump source pos
        lexOperator fuel pos
      else return pos

/-- What starts with a hash. -/
def lexPound (start pos : Nat) : Guarded (TokenKind × Nat) := do
  let rest ← sliceFrom pos source
  if (rest.dropWhile (· == '#')).head? = some '\x22' then
    return (.stringLiteral, ← lexRawString source start pos)
  else if (← peek source pos).any isWordStart then
    return (.poundKeyword, ← eatWhile source isWordPart (bound source) pos)
  else return (.operator, pos)

/-! ### Tokens -/

/-- The kind of the token at `start` and the position behind it. -/
def lexToken (start : Nat) : Guarded (TokenKind × Nat) := do
  match ← bump source start with
  | (none, pos) => return (.endOfFile, pos)
  | (some c, pos) =>
    if c = '\x22' then return (.stringLiteral, ← lexString source start pos)
    else if c = '\x60' then return (.identifier, ← lexTicked source start pos)
    else if c = '$' || isWordStart c then
      let stop ← eatWhile source isWordPart (bound source) pos
      return (Lexeme.wordKind (← slice start stop source), stop)
    else if c.isDigit then return (.numberLiteral, ← lexNumber source (bound source) pos)
    else if c = '#' then lexPound source start pos
    else match Lexeme.punctuation? c with
      | some kind => return (kind, pos)
      | none =>
        if Lexeme.isOperatorChar c then
          let stop ← lexOperator source (bound source) pos
          return (Lexeme.operatorKind (← slice start stop source), stop)
        else refuse (.unexpectedToken "a token" (String.singleton c) start)

/-- The token at `start` with its trailing trivia, and the position behind them. -/
def lexOne (leading : Trivia) (start : Nat) : Guarded (Token × Nat) := do
  let (kind, stop) ← lexToken source start
  let (trailing, pos) ← lexTrivia source true (bound source) .empty stop
  let text ← slice start stop source
  return ({ kind, text := String.ofList text, leading, trailing, span := some ⟨start, stop⟩ }, pos)

/-- The tokens from `start` on, the end of the file last. -/
def lexFrom : Nat → Trivia → Nat → Guarded (List Token)
  | 0, _, _ => fault .endless
  | fuel + 1, leading, start => do
    match ← peek source start with
    | none =>
      return [{ kind := .endOfFile, text := "", leading, span := some ⟨start, start⟩ }]
    | some _ =>
      let (token, pos) ← lexOne source leading start
      let (next, pos) ← lexTrivia source false (bound source) .empty pos
      let tokens ← lexFrom fuel next pos
      return token :: tokens

/-- All tokens of the source, the end of the file last. -/
def lex : Guarded (List Token) := do
  let (leading, pos) ← lexTrivia source false (bound source) .empty 0
  lexFrom source (bound source) leading pos

variable {source} {cs rest : List Char}

/-! ### Literals and runs are found -/

/-- The position behind what was split off, or a refusal. -/
def behind (source : List Char) (e : ParseError Nat) :
    Option (List Char × List Char) → Guarded Nat
  | some (_, after) => .ok (place source after)
  | none => refuse e

theorem behind_map (e : ParseError Nat) (f : List Char → List Char)
    (o : Option (List Char × List Char)) :
    behind source e (o.map fun p ↦ (f p.1, p.2)) = behind source e o := by
  cases o <;> rfl

theorem find_closeWith (h : rest <:+ source) (delimiter : List Char) (e : ParseError Nat) :
    (match find delimiter rest with
      | none => refuse e
      | some stop => .ok (place source rest + (stop + byteSize delimiter))) =
      behind source e (Lexeme.closeWith? delimiter rest) := by
  rw [find, Lexeme.closeWith?]
  cases hsplit : splitAtFirst? delimiter rest with
  | none => rfl
  | some split =>
    obtain ⟨body, after⟩ := split
    have hrest := Text.append_of_splitAtFirst? hsplit
    rw [← List.append_assoc] at hrest
    have hplace := place_append (hrest ▸ h)
    rw [hrest, Text.byteSize_append] at hplace
    exact congrArg Except.ok hplace

theorem find_closeOnLine (h : rest <:+ source) (delimiter : List Char) (e : ParseError Nat) :
    (match find delimiter rest with
      | none => refuse e
      | some stop => do
        let body ← sliceTo stop rest
        if body.contains '\n' then refuse e
        else .ok (place source rest + (stop + byteSize delimiter))) =
      behind source e (Lexeme.closeOnLine? delimiter rest) := by
  have hwith := find_closeWith h delimiter e
  rw [find, Lexeme.closeWith?] at hwith
  rw [find, Lexeme.closeOnLine?]
  cases hsplit : splitAtFirst? delimiter rest with
  | none => rfl
  | some split =>
    obtain ⟨body, after⟩ := split
    rw [hsplit] at hwith
    have hrest := Text.append_of_splitAtFirst? hsplit
    have hbody : sliceTo (byteSize body) rest = .ok body := by rw [← hrest, sliceTo_append]
    rw [Option.map_some, Option.bind_some]
    dsimp only
    rw [hbody, ok_bind]
    split
    · rfl
    · exact hwith

theorem lexQuoted_place {start fuel : Nat} (h : rest <:+ source) (hfuel : rest.length < fuel) :
    lexQuoted source start fuel (place source rest) =
      behind source (.unterminatedString start) (Lexeme.closeQuote? rest) := by
  have hnil {fuel : Nat} (hfuel : 0 < fuel) : lexQuoted source start fuel (place source []) =
      refuse (.unterminatedString start) := by
    obtain ⟨fuel, rfl⟩ := exists_fuel hfuel
    rw [lexQuoted, bump_nil]
    rfl
  fun_induction Lexeme.closeQuote? rest generalizing fuel with
  | case1 => exact hnil hfuel
  | case2 =>
    obtain ⟨fuel, rfl⟩ := exists_fuel hfuel
    rw [lexQuoted, bump_cons h, ok_bind]
    dsimp only
    rw [if_pos rfl, bump_nil, ok_bind]
    exact hnil (by simpa using hfuel)
  | case3 c cs ih =>
    obtain ⟨fuel, rfl⟩ := exists_fuel hfuel
    rw [lexQuoted, bump_cons h, ok_bind]
    dsimp only
    rw [if_pos rfl, bump_cons (suffix_of_cons h), ok_bind]
    have hcs := ih (suffix_of_cons (suffix_of_cons h))
      (Nat.lt_of_succ_lt (Nat.lt_of_succ_lt_succ hfuel))
    exact hcs.trans (behind_map _ ('\\' :: c :: ·) _).symm
  | case4 cs =>
    obtain ⟨fuel, rfl⟩ := exists_fuel hfuel
    rw [lexQuoted, bump_cons h]
    rfl
  | case5 cs =>
    obtain ⟨fuel, rfl⟩ := exists_fuel hfuel
    rw [lexQuoted, bump_cons h]
    rfl
  | case6 c cs hslash hquote hline ih =>
    obtain ⟨fuel, rfl⟩ := exists_fuel hfuel
    rw [lexQuoted, bump_cons h, ok_bind]
    dsimp only
    rw [if_neg (by simpa using hslash), if_neg (by simpa using hquote),
      if_neg (by simpa using hline)]
    have hcs := ih (suffix_of_cons h) (Nat.lt_of_succ_lt_succ hfuel)
    exact hcs.trans (behind_map _ (c :: ·) _).symm

theorem lexString_place {start : Nat} (h : rest <:+ source) :
    lexString source start (place source rest) =
      behind source (.unterminatedString start) (Lexeme.closeString? rest) := by
  rw [lexString, sliceFrom_place h, ok_bind]
  by_cases hopen : ['\x22', '\x22'].isPrefixOf rest = true
  · obtain ⟨cs, rfl⟩ := List.isPrefixOf_iff_prefix.1 hopen
    have hcs : cs <:+ source := (List.suffix_append _ _).trans h
    have hplace : place source (['\x22', '\x22'] ++ cs) + 2 = place source cs := place_append h
    have hclose := (find_closeWith hcs ['\x22', '\x22', '\x22'] (.unterminatedString start)).trans
      (behind_map _ ('\x22' :: '\x22' :: ·) _).symm
    rw [if_pos hopen, hplace, sliceFrom_place hcs, ok_bind]
    exact hclose
  · have hclose : Lexeme.closeString? rest = Lexeme.closeQuote? rest :=
      Lexeme.closeString?.eq_2 rest fun cs hrest ↦ hopen (hrest ▸ by simp)
    rw [if_neg hopen, hclose, lexQuoted_place h (length_lt_bound h)]

theorem lexTicked_place {start : Nat} (h : rest <:+ source) :
    lexTicked source start (place source rest) =
      behind source (.unexpectedToken "closing back-tick" "`" start)
        (Lexeme.closeOnLine? ['\x60'] rest) := by
  rw [lexTicked, sliceFrom_place h, ok_bind, ← find_closeOnLine h]
  rfl

theorem numberTail_dropWhile (cs : List Char) :
    (Lexeme.numberTail (cs.dropWhile Lexeme.isNumberPart)).2 = (Lexeme.numberTail cs).2 := by
  induction cs with
  | nil => rfl
  | cons c cs ih =>
    rw [List.dropWhile_cons]
    split
    next hc =>
      rw [ih, Lexeme.numberTail, hc, Bool.true_or, if_pos rfl]
    next => rfl

theorem lexNumber_place {fuel : Nat} (h : rest <:+ source) (hfuel : rest.length < fuel) :
    lexNumber source fuel (place source rest) = .ok (place source (Lexeme.numberTail rest).2) := by
  induction fuel generalizing rest with
  | zero => omega
  | succ fuel ih =>
    have hdrop := List.dropWhile_suffix (l := rest) Lexeme.isNumberPart
    have hstop := List.head?_dropWhile_not Lexeme.isNumberPart rest
    have hle := hdrop.length_le
    rw [lexNumber, eatWhile_place h (length_lt_bound h), ok_bind, ← numberTail_dropWhile]
    generalize rest.dropWhile Lexeme.isNumberPart = after at hdrop hstop hle
    have hafter := hdrop.trans h
    rw [peek_place hafter, ok_bind, peekSecond_place hafter, ok_bind]
    cases after with
    | nil => rfl
    | cons c cs =>
      have hc : Lexeme.isNumberPart c = false := by simpa using hstop
      rw [Lexeme.numberTail, hc, Bool.false_or]
      by_cases hpoint : (c == '.' && cs.head?.any Char.isDigit) = true
      · have hboth : (c :: cs).head? = some '.' ∧ (c :: cs)[1]?.any Char.isDigit = true := by
          simpa [List.head?_eq_getElem?] using hpoint
        rw [if_pos hboth, if_pos hpoint, bump_cons hafter, ok_bind]
        refine ih (suffix_of_cons hafter) ?_
        simp only [List.length_cons] at hle
        omega
      · have hnot : ¬((c :: cs).head? = some '.' ∧ (c :: cs)[1]?.any Char.isDigit = true) := by
          simpa [List.head?_eq_getElem?] using hpoint
        rw [if_neg hnot, if_neg hpoint]
        rfl

theorem lexOperator_place {fuel : Nat} (h : rest <:+ source) (hfuel : rest.length < fuel) :
    lexOperator source fuel (place source rest) =
      .ok (place source (Lexeme.operatorTail rest).2) := by
  induction fuel generalizing rest with
  | zero => omega
  | succ fuel ih =>
    rw [lexOperator, peek_place h, ok_bind]
    cases rest with
    | nil => rfl
    | cons c cs =>
      rw [List.head?_cons, peekSecond_place h, Lexeme.operatorTail]
      dsimp only
      rw [ok_bind, List.getElem?_cons_succ, ← List.head?_eq_getElem?]
      split
      · rw [bump_cons h, ok_bind]
        exact ih (suffix_of_cons h) (by simpa using hfuel)
      · rfl

theorem byteSize_replicate (n : Nat) : byteSize (List.replicate n '#') = n := by
  induction n with
  | zero => rfl
  | succ n ih =>
    rw [List.replicate_succ, Text.byteSize_cons, ih]
    exact Nat.add_comm 1 n

theorem takeWhile_hashes (cs : List Char) :
    ∃ n, cs.takeWhile (· == '#') = List.replicate n '#' := by
  refine ⟨_, List.eq_replicate_of_mem fun d hd ↦ ?_⟩
  simpa using List.mem_takeWhile_imp hd

theorem lexRawString_place {after : List Char} (h : '#' :: rest <:+ source)
    (hquote : rest.dropWhile (· == '#') = '\x22' :: after) :
    lexRawString source (place source ('#' :: rest)) (place source rest) =
      behind source (.unterminatedString (place source ('#' :: rest)))
        (Lexeme.closeRawString? ('#' :: rest.takeWhile (· == '#')) after) := by
  have hrest : rest <:+ source := suffix_of_cons h
  have hdrop : '\x22' :: after <:+ source :=
    hquote ▸ (List.dropWhile_suffix (l := rest) (· == '#')).trans hrest
  have hafter : after <:+ source := suffix_of_cons hdrop
  obtain ⟨n, hn⟩ := takeWhile_hashes rest
  have hsplit := List.takeWhile_append_dropWhile (p := (· == '#')) (l := rest)
  rw [hn, hquote] at hsplit
  have hhashes : List.replicate (n + 1) '#' ++ '\x22' :: after = '#' :: rest := by
    rw [List.replicate_succ, List.cons_append, hsplit]
  have hplace := place_append (hhashes ▸ h)
  rw [hhashes, byteSize_replicate] at hplace
  have hcount :
      sub (place source ('\x22' :: after)) (place source ('#' :: rest)) = .ok (n + 1) := by
    rw [sub_of_le (by omega), ← hplace, Nat.add_sub_cancel_left]
  rw [lexRawString, eatWhile_place hrest (length_lt_bound hrest), ok_bind, hquote, hcount, ok_bind,
    bump_cons hdrop, ok_bind]
  dsimp only
  rw [sliceFrom_place hafter, ok_bind, hn, ← List.replicate_succ]
  by_cases hopen : ['\x22', '\x22'].isPrefixOf after = true
  · obtain ⟨cs, rfl⟩ := List.isPrefixOf_iff_prefix.1 hopen
    have hcs : cs <:+ source := (List.suffix_append _ _).trans hafter
    have hplace : place source (['\x22', '\x22'] ++ cs) + 2 = place source cs :=
      place_append hafter
    have hclose := (find_closeWith hcs ('\x22' :: '\x22' :: '\x22' :: List.replicate (n + 1) '#')
      (.unterminatedString (place source ('#' :: rest)))).trans
      (behind_map _ ('\x22' :: '\x22' :: ·) _).symm
    rw [if_pos hopen, hplace, sliceFrom_place hcs, ok_bind]
    exact hclose
  · have hclose : Lexeme.closeRawString? (List.replicate (n + 1) '#') after =
        Lexeme.closeOnLine? ('\x22' :: List.replicate (n + 1) '#') after :=
      Lexeme.closeRawString?.eq_2 _ after fun cs hcs ↦ hopen (hcs ▸ by simp)
    rw [if_neg hopen, hclose, ← find_closeOnLine hafter]
    rfl

/-- A token that was cut, or why none was, at positions of the source. -/
def atToken (source cs : List Char) :
    Except Lexeme.Fault (TokenKind × List Char × List Char) → Guarded (TokenKind × Nat)
  | .ok (kind, _, after) => .ok (kind, place source after)
  | .error e => refuse ((TokenStream.lexicalError e cs).map (place source))

theorem lexPound_place (h : '#' :: rest <:+ source) :
    lexPound source (place source ('#' :: rest)) (place source rest) =
      atToken source ('#' :: rest) (Lexeme.cutPound rest) := by
  have hrest : rest <:+ source := suffix_of_cons h
  rw [lexPound, sliceFrom_place hrest, ok_bind]
  by_cases hraw : (rest.dropWhile (· == '#')).head? = some '\x22'
  · obtain ⟨after, hquote⟩ := List.head?_eq_some_iff.1 hraw
    rw [if_pos hraw, lexRawString_place h hquote]
    cases hclose : Lexeme.closeRawString? ('#' :: rest.takeWhile (· == '#')) after with
    | none =>
      simp only [Lexeme.cutPound, hquote, hclose]
      rfl
    | some split =>
      simp only [Lexeme.cutPound, hquote, hclose]
      rfl
  · have hopens : Lexeme.opensRawString rest = false := by
      simpa [Lexeme.opensRawString] using hraw
    rw [if_neg hraw, Lexeme.cutPound_of_not_opensRawString hopens, peek_place hrest, ok_bind]
    split
    · rw [eatWhile_place hrest (length_lt_bound hrest)]
      rfl
    · rfl

/-- The text of a token that goes on over some of the characters after its first. -/
theorem slice_run {c : Char} {tail : List Char} (h : c :: (tail ++ rest) <:+ source) :
    slice (place source (c :: (tail ++ rest))) (place source rest) source = .ok (c :: tail) :=
  @slice_place source (c :: tail) rest h

theorem lexToken_place {c : Char} {cs : List Char} (h : c :: cs <:+ source) :
    lexToken source (place source (c :: cs)) = atToken source (c :: cs) (Lexeme.cut c cs) := by
  have hcs : cs <:+ source := suffix_of_cons h
  rw [lexToken, bump_cons h, ok_bind, Lexeme.cut]
  dsimp only
  split
  next hc =>
    rw [lexString_place hcs]
    cases Lexeme.closeString? cs <;> rfl
  split
  next hc =>
    rw [lexTicked_place hcs]
    cases Lexeme.closeOnLine? ['\x60'] cs <;> rfl
  split
  next hc =>
    have hsplit := Lexeme.wordTail_append cs
    rw [eatWhile_place hcs (length_lt_bound hcs), ok_bind]
    have htext := slice_run (c := c) (hsplit.symm ▸ h)
    rw [hsplit] at htext
    exact congrArg (fun text ↦ text >>= fun text ↦
      .ok (Lexeme.wordKind text, place source (Lexeme.wordTail cs).2)) htext
  split
  next hc =>
    rw [lexNumber_place hcs (length_lt_bound hcs)]
    rfl
  split
  next hc =>
    subst hc
    exact lexPound_place h
  cases Lexeme.punctuation? c with
  | some kind => rfl
  | none =>
    dsimp only
    split
    · have hsplit := Lexeme.operatorTail_append cs
      have htext := slice_run (c := c) (hsplit.symm ▸ h)
      rw [hsplit] at htext
      rw [lexOperator_place hcs (length_lt_bound hcs), ok_bind, htext]
      rfl
    · rfl

/-! ### All tokens -/

theorem suffix_of_scanTrivia {sameLine : Bool} {t : Trivia}
    (h : TokenStream.scanTrivia sameLine cs = .ok (t, rest)) : rest <:+ cs := by
  have htext := Trivia.toList_text_of_scan (TokenStream.scanTrivia_eq_ok.1 h)
  exact ⟨t.text.toList, by simpa using htext⟩

theorem suffix_of_nextToken {leading : Trivia} {c : Char} {t : Token}
    (h : TokenStream.nextToken leading c cs = .ok (t, rest)) : rest <:+ cs := by
  obtain ⟨kind, tail, after, trailing, hcut, hscan, -⟩ := TokenStream.nextToken_eq_ok.1 h
  have hafter := suffix_of_scanTrivia (TokenStream.scanTrivia_eq_ok.2 hscan)
  exact hafter.trans ⟨tail, Lexeme.append_of_cut hcut⟩

theorem nextToken_of_cut {leading : Trivia} {c : Char} {kind : TokenKind} {tail after : List Char}
    (h : Lexeme.cut c cs = .ok (kind, tail, after)) :
    TokenStream.nextToken leading c cs = (TokenStream.scanTrivia true after).map fun p ↦
      ({ kind, text := String.ofList (c :: tail), leading, trailing := p.1 }, p.2) := by
  rw [TokenStream.nextToken, h]
  simp only [Except.mapError, bind, Except.bind]
  cases TokenStream.scanTrivia true after <;> rfl

/-- Behind a character there is no byte order mark to be trivia. -/
theorem lexTrivia_behind {sameLine : Bool} {c : Char} (h : c :: cs <:+ source)
    (hrest : rest <:+ cs) :
    lexTrivia source sameLine (bound source) .empty (place source rest) =
      atPlaces source (TokenStream.scanTrivia sameLine rest) := by
  have hsource := hrest.trans (suffix_of_cons h)
  exact lexTrivia_place hsource (length_lt_bound hsource) fun hplace ↦
    absurd hplace (place_ne_zero h hrest)

theorem lexOne_place {n : Nat} {leading : Trivia} {c : Char} (h : c :: cs <:+ source)
    (hn : n + leading.text.utf8ByteSize = place source (c :: cs)) :
    lexOne source leading (place source (c :: cs)) =
      match TokenStream.nextToken leading c cs with
      | .ok (t, mid) => .ok (TokenStream.placeToken n t, place source mid)
      | .error e => refuse (e.map (place source)) := by
  rw [lexOne, lexToken_place h]
  cases hcut : Lexeme.cut c cs with
  | error e =>
    rw [TokenStream.nextToken, hcut]
    rfl
  | ok cut =>
    obtain ⟨kind, tail, after⟩ := cut
    have hcs := Lexeme.append_of_cut hcut
    have hsplit : c :: (tail ++ after) <:+ source := hcs.symm ▸ h
    have hafter : after <:+ cs := ⟨tail, hcs⟩
    have htext := slice_run hsplit
    rw [hcs] at htext
    have hstop : place source after = n + leading.text.utf8ByteSize +
        (String.ofList (c :: tail)).utf8ByteSize := by
      rw [hn, ← hcs, ← Text.byteSize_toList, String.toList_ofList]
      exact (@place_append source (c :: tail) after hsplit).symm
    rw [atToken, ok_bind, nextToken_of_cut hcut]
    dsimp only
    rw [lexTrivia_behind h hafter]
    cases TokenStream.scanTrivia true after with
    | error e => rfl
    | ok scanned =>
      obtain ⟨trailing, mid⟩ := scanned
      rw [atPlaces, ok_bind]
      dsimp only
      rw [htext, ok_bind, hstop, ← hn]
      rfl

/-- The tokens of a stream whose first trivia starts at byte `n`, at their places. -/
def placedFrom (n : Nat) (s : TokenStream) : List Token :=
  (TokenStream.placeTokens n s.tokens).1 ++
    [TokenStream.placeToken (TokenStream.placeTokens n s.tokens).2 s.endOfFile]

/-- The trivia of the next token starts where the token with its trivia ends. -/
theorem place_next {n : Nat} {leading next : Trivia} {c : Char} {mid after : List Char} {t : Token}
    (h : c :: cs <:+ source) (hn : n + leading.text.utf8ByteSize = place source (c :: cs))
    (htoken : TokenStream.nextToken leading c cs = .ok (t, mid))
    (hnext : TokenStream.scanTrivia false mid = .ok (next, after)) :
    n + t.source.utf8ByteSize + next.text.utf8ByteSize = place source after := by
  obtain ⟨hleading, hchars⟩ := TokenStream.chars_of_nextToken htoken
  have htrivia := Trivia.toList_text_of_scan (TokenStream.scanTrivia_eq_ok.1 hnext)
  simp only [Trivia.text_empty, String.toList_empty, List.nil_append] at htrivia
  rw [← htrivia, ← List.append_assoc, ← List.append_assoc] at hchars
  have hplace := place_append (hchars.symm ▸ h)
  rw [hchars, ← hn] at hplace
  simp only [Text.byteSize_append, Text.byteSize_toList] at hplace
  rw [Token.size_source, hleading]
  omega

theorem lexFrom_place {n fuel : Nat} {leading : Trivia} (h : rest <:+ source)
    (hfuel : rest.length < fuel) (hn : n + leading.text.utf8ByteSize = place source rest) :
    lexFrom source fuel leading (place source rest) =
      match TokenStream.cut leading rest with
      | .ok s => .ok (placedFrom n s)
      | .error e => refuse (e.map (place source)) := by
  induction fuel generalizing n leading rest with
  | zero => omega
  | succ fuel ih =>
    rw [lexFrom, peek_place h, ok_bind]
    cases rest with
    | nil =>
      rw [TokenStream.cut_nil, ← hn]
      rfl
    | cons c cs =>
      rw [TokenStream.cut, List.head?_cons]
      dsimp only
      rw [lexOne_place h hn]
      cases htoken : TokenStream.nextToken leading c cs with
      | error e => rfl
      | ok next =>
        obtain ⟨t, mid⟩ := next
        have hmid := suffix_of_nextToken htoken
        have hsource : mid <:+ source := hmid.trans (suffix_of_cons h)
        dsimp only
        rw [ok_bind]
        dsimp only
        rw [lexTrivia_behind h hmid]
        cases hnext : TokenStream.scanTrivia false mid with
        | error e => rfl
        | ok scanned =>
          obtain ⟨next, after⟩ := scanned
          have hafter := suffix_of_scanTrivia hnext
          have hlength : after.length < fuel :=
            Nat.lt_of_le_of_lt (hafter.length_le.trans hmid.length_le)
              (Nat.lt_of_succ_lt_succ hfuel)
          rw [atPlaces, ok_bind]
          dsimp only
          rw [ih (hafter.trans hsource) hlength (place_next h hn htoken hnext)]
          cases TokenStream.cut next after <;> rfl

/-- A byte order mark at the start of the source is trivia. -/
theorem lexTrivia_start (source : List Char) :
    lexTrivia source false (bound source) .empty 0 =
      atPlaces source ((Trivia.scan false (TokenStream.startTrivia source).1
        (TokenStream.startTrivia source).2).mapError .unterminatedComment) := by
  have hzero : place source source = 0 := Nat.sub_self _
  have hstart := List.suffix_refl source
  unfold TokenStream.startTrivia
  split
  next cs =>
    have hcs : cs <:+ '\uFEFF' :: cs := List.suffix_cons _ _
    have hmark : lexTrivia ('\uFEFF' :: cs) false (cs.length + 1 + 1) .empty
        (place ('\uFEFF' :: cs) ('\uFEFF' :: cs)) =
        lexTrivia ('\uFEFF' :: cs) false (cs.length + 1) (.ofPieces [.byteOrderMark])
          (place ('\uFEFF' :: cs) cs) :=
      lexTrivia_blank hstart (if_pos hzero)
    rw [hzero] at hmark
    refine hmark.trans (lexTrivia_place hcs (Nat.lt_succ_self _) fun hplace ↦ ?_)
    exact absurd hplace (place_ne_zero hstart List.suffix_rfl)
  next hmark =>
    have htrivia : lexTrivia source false (bound source) .empty (place source source) =
        atPlaces source ((Trivia.scan false .empty source).mapError .unterminatedComment) := by
      refine lexTrivia_place hstart (length_lt_bound hstart) fun _ hhead ↦ ?_
      obtain ⟨cs, hcs⟩ := List.head?_eq_some_iff.1 hhead
      exact hmark cs hcs
    rwa [hzero] at htrivia

/-- By positions the lexer finds the tokens of the source, or refuses it, and never fails in any
other way. -/
theorem lex_eq (source : String) :
    lex source.toList = ofReading ((TokenStream.ofSource source).map TokenStream.toList) := by
  have hplace : (fun rest ↦ source.utf8ByteSize - byteSize rest) = place source.toList := by
    funext rest
    rw [place, Text.byteSize_toList]
  rw [lex, lexTrivia_start, TokenStream.ofSource, TokenStream.cutAll, hplace]
  have hstart := TokenStream.toList_text_startTrivia source.toList
  generalize TokenStream.startTrivia source.toList = start at hstart
  obtain ⟨mark, rest⟩ := start
  dsimp only at hstart ⊢
  cases hscan : Trivia.scan false mark rest with
  | error e => rfl
  | ok scanned =>
    obtain ⟨leading, after⟩ := scanned
    have htext := (Trivia.toList_text_of_scan hscan).trans hstart
    have hafter : after <:+ source.toList := ⟨_, htext⟩
    have hn : 0 + leading.text.utf8ByteSize = place source.toList after := by
      rw [Nat.zero_add, place, ← htext, Text.byteSize_append, Text.byteSize_toList,
        Nat.add_sub_cancel]
    have hlex := lexFrom_place hafter (length_lt_bound hafter) hn
    refine hlex.trans ?_
    simp only [Except.mapError, bind, Except.bind]
    cases TokenStream.cut leading after <;> rfl

end EnumForge.Checked
