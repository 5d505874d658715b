import EnumForge.Text.Search
import EnumForge.Token

/-!
# Lexemes

The rules that cut one token from the head of a text.  Each rule is given the first character and
the text after it, and returns how much of that text belongs to the token and what is left.
-/

namespace EnumForge.Lexeme

open Text

/-- Why no token could be cut.  The place is always the start of the would-be token. -/
inductive Fault where
  | unterminatedString
  | unclosedBacktick
  | noToken (c : Char)
deriving DecidableEq, Repr

def isOperatorChar (c : Char) : Bool := "/=-+!*%<>&|^~?".toList.contains c

/-- Letters, digits and underscores of ASCII, which make up a number once a digit started it. -/
def isNumberPart (c : Char) : Bool := c == '_' || c.isAlphanum

/-- The text up to and with the closing quote; a backslash protects the character after it, and a
line break ends the search. -/
def closeQuote? : List Char → Option (List Char × List Char)
  | [] => none
  | '\\' :: cs => match cs with
    | [] => none
    | c :: cs => (closeQuote? cs).map fun (body, rest) ↦ ('\\' :: c :: body, rest)
  | '\x22' :: cs => some (['\x22'], cs)
  | '\n' :: _ => none
  | c :: cs => (closeQuote? cs).map fun (body, rest) ↦ (c :: body, rest)

/-- The text up to and with `delimiter`. -/
def closeWith? (delimiter cs : List Char) : Option (List Char × List Char) :=
  (splitAtFirst? delimiter cs).map fun (body, rest) ↦ (body ++ delimiter, rest)

/-- As `closeWith?`, within the line. -/
def closeOnLine? (delimiter cs : List Char) : Option (List Char × List Char) :=
  (splitAtFirst? delimiter cs).bind fun (body, rest) ↦
    if body.contains '\n' then none else some (body ++ delimiter, rest)

/-- The text after the first quote of a string literal: three quotes open a literal that runs to
the next three, one quote a literal that ends on its line. -/
def closeString? : List Char → Option (List Char × List Char)
  | '\x22' :: '\x22' :: cs =>
    (closeWith? ['\x22', '\x22', '\x22'] cs).map fun (body, rest) ↦
      ('\x22' :: '\x22' :: body, rest)
  | cs => closeQuote? cs

/-- The text after the first quote of a raw string literal opened with `hashes`. -/
def closeRawString? (hashes : List Char) : List Char → Option (List Char × List Char)
  | '\x22' :: '\x22' :: cs =>
    (closeWith? ('\x22' :: '\x22' :: '\x22' :: hashes) cs).map fun (body, rest) ↦
      ('\x22' :: '\x22' :: body, rest)
  | cs => closeOnLine? ('\x22' :: hashes) cs

/-- A number goes on over letters, digits and underscores, and over a point before a digit. -/
def numberTail : List Char → List Char × List Char
  | [] => ([], [])
  | c :: cs =>
    if isNumberPart c || c == '.' && cs.head?.any Char.isDigit then
      let (tail, rest) := numberTail cs
      (c :: tail, rest)
    else ([], c :: cs)

/-- An operator goes on over operator characters, up to where a comment starts. -/
def operatorTail : List Char → List Char × List Char
  | [] => ([], [])
  | c :: cs =>
    if isOperatorChar c && !(c == '/' && (cs.head? == some '/' || cs.head? == some '*')) then
      let (tail, rest) := operatorTail cs
      (c :: tail, rest)
    else ([], c :: cs)

def wordTail (cs : List Char) : List Char × List Char :=
  (cs.takeWhile isWordPart, cs.dropWhile isWordPart)

def punctuation? : Char → Option TokenKind
  | '@' => some .atSign
  | ':' => some .colon
  | ',' => some .comma
  | '.' => some .period
  | ';' => some .semicolon
  | '\x7b' => some .leftBrace
  | '\x7d' => some .rightBrace
  | '(' => some .leftParen
  | ')' => some .rightParen
  | '[' => some .leftSquare
  | ']' => some .rightSquare
  | _ => none

def wordKind (word : List Char) : TokenKind :=
  if isKeyword (String.ofList word) then .keyword else .identifier

def operatorKind (text : List Char) : TokenKind :=
  if text = ['='] then .equal else if text = ['-', '>'] then .arrow else .operator

/-- What `#` starts: a raw string literal if a quote follows the hashes, a keyword such as `#if`
if a word follows, an operator otherwise. -/
def cutPound (cs : List Char) : Except Fault (TokenKind × List Char × List Char) :=
  let hashes := cs.takeWhile (· == '#')
  match cs.dropWhile (· == '#') with
  | '\x22' :: after =>
    match closeRawString? ('#' :: hashes) after with
    | some (body, rest) => .ok (.stringLiteral, hashes ++ '\x22' :: body, rest)
    | none => .error .unterminatedString
  | _ =>
    if cs.head?.any isWordStart then .ok (.poundKeyword, wordTail cs)
    else .ok (.operator, [], cs)

/-- Cuts the token that starts with `c`, where `cs` follows: its kind, its text after `c`, and
the rest of `cs`. -/
def cut (c : Char) (cs : List Char) : Except Fault (TokenKind × List Char × List Char) :=
  if c = '\x22' then
    match closeString? cs with
    | some (body, rest) => .ok (.stringLiteral, body, rest)
    | none => .error .unterminatedString
  else if c = '\x60' then
    match closeOnLine? ['\x60'] cs with
    | some (body, rest) => .ok (.identifier, body, rest)
    | none => .error .unclosedBacktick
  else if c = '$' || isWordStart c then
    let (tail, rest) := wordTail cs
    .ok (wordKind (c :: tail), tail, rest)
  else if c.isDigit then .ok (.numberLiteral, numberTail cs)
  else if c = '#' then cutPound cs
  else match punctuation? c with
    | some kind => .ok (kind, [], cs)
    | none =>
      if isOperatorChar c then
        let (tail, rest) := operatorTail cs
        .ok (operatorKind (c :: tail), tail, rest)
      else .error (.noToken c)

/-! ### Nothing is lost -/

theorem append_of_closeQuote? {cs body rest : List Char}
    (h : closeQuote? cs = some (body, rest)) : body ++ rest = cs := by
  fun_induction closeQuote? cs generalizing body rest with
  | case1 => simp at h
  | case2 => simp at h
  | case3 c cs ih =>
    obtain ⟨⟨b, r⟩, hs, he⟩ := Option.map_eq_some_iff.1 h
    simp only [Prod.mk.injEq] at he
    obtain ⟨rfl, rfl⟩ := he
    simp [ih hs]
  | case4 cs =>
    simp only [Option.some.injEq, Prod.mk.injEq] at h
    obtain ⟨rfl, rfl⟩ := h
    rfl
  | case5 => simp at h
  | case6 c cs _ _ _ ih =>
    obtain ⟨⟨b, r⟩, hs, he⟩ := Option.map_eq_some_iff.1 h
    simp only [Prod.mk.injEq] at he
    obtain ⟨rfl, rfl⟩ := he
    simp [ih hs]

theorem append_of_closeWith? {delimiter cs body rest : List Char}
    (h : closeWith? delimiter cs = some (body, rest)) : body ++ rest = cs := by
  obtain ⟨⟨b, r⟩, hs, he⟩ := Option.map_eq_some_iff.1 h
  simp only [Prod.mk.injEq] at he
  obtain ⟨rfl, rfl⟩ := he
  simpa using append_of_splitAtFirst? hs

theorem append_of_closeOnLine? {delimiter cs body rest : List Char}
    (h : closeOnLine? delimiter cs = some (body, rest)) : body ++ rest = cs := by
  obtain ⟨⟨b, r⟩, hs, he⟩ := Option.bind_eq_some_iff.1 h
  dsimp only at he
  split at he
  · simp at he
  · simp only [Option.some.injEq, Prod.mk.injEq] at he
    obtain ⟨rfl, rfl⟩ := he
    simpa using append_of_splitAtFirst? hs

theorem append_of_closeString? {cs body rest : List Char}
    (h : closeString? cs = some (body, rest)) : body ++ rest = cs := by
  unfold closeString? at h
  split at h
  · obtain ⟨⟨b, r⟩, hs, he⟩ := Option.map_eq_some_iff.1 h
    simp only [Prod.mk.injEq] at he
    obtain ⟨rfl, rfl⟩ := he
    simpa using append_of_closeWith? hs
  · exact append_of_closeQuote? h

theorem append_of_closeRawString? {hashes cs body rest : List Char}
    (h : closeRawString? hashes cs = some (body, rest)) : body ++ rest = cs := by
  unfold closeRawString? at h
  split at h
  · obtain ⟨⟨b, r⟩, hs, he⟩ := Option.map_eq_some_iff.1 h
    simp only [Prod.mk.injEq] at he
    obtain ⟨rfl, rfl⟩ := he
    simpa using append_of_closeWith? hs
  · exact append_of_closeOnLine? h

theorem numberTail_append (cs : List Char) : (numberTail cs).1 ++ (numberTail cs).2 = cs := by
  fun_induction numberTail cs <;> simp_all

theorem operatorTail_append (cs : List Char) :
    (operatorTail cs).1 ++ (operatorTail cs).2 = cs := by
  fun_induction operatorTail cs <;> simp_all

theorem wordTail_append (cs : List Char) : (wordTail cs).1 ++ (wordTail cs).2 = cs := by
  simp [wordTail]

theorem append_of_cutPound {cs tail rest : List Char} {kind : TokenKind}
    (h : cutPound cs = .ok (kind, tail, rest)) : tail ++ rest = cs := by
  have split_eq := List.takeWhile_append_dropWhile (p := (· == '#')) (l := cs)
  unfold cutPound at h
  split at h
  next after hd =>
    dsimp only at h
    split at h
    next body r hc =>
      simp only [Except.ok.injEq, Prod.mk.injEq] at h
      obtain ⟨-, rfl, rfl⟩ := h
      rw [hd] at split_eq
      simpa [append_of_closeRawString? hc] using split_eq
    next => simp at h
  next =>
    split at h
    · simp only [Except.ok.injEq, Prod.mk.injEq] at h
      obtain ⟨-, h⟩ := h
      have := wordTail_append cs
      rwa [h] at this
    · simp only [Except.ok.injEq, Prod.mk.injEq] at h
      obtain ⟨-, rfl, rfl⟩ := h
      rfl

/-- The text of a token and what is left after it are the text it was cut from. -/
theorem append_of_cut {c : Char} {cs tail rest : List Char} {kind : TokenKind}
    (h : cut c cs = .ok (kind, tail, rest)) : tail ++ rest = cs := by
  unfold cut at h
  split at h
  · split at h
    next body r hc =>
      simp only [Except.ok.injEq, Prod.mk.injEq] at h
      obtain ⟨-, rfl, rfl⟩ := h
      exact append_of_closeString? hc
    next => simp at h
  split at h
  · split at h
    next body r hc =>
      simp only [Except.ok.injEq, Prod.mk.injEq] at h
      obtain ⟨-, rfl, rfl⟩ := h
      exact append_of_closeOnLine? hc
    next => simp at h
  split at h
  · simp only [Except.ok.injEq, Prod.mk.injEq] at h
    obtain ⟨-, rfl, rfl⟩ := h
    exact wordTail_append cs
  split at h
  · simp only [Except.ok.injEq, Prod.mk.injEq] at h
    have := numberTail_append cs
    rwa [h.2] at this
  split at h
  · exact append_of_cutPound h
  split at h
  · simp only [Except.ok.injEq, Prod.mk.injEq] at h
    obtain ⟨-, rfl, rfl⟩ := h
    rfl
  split at h
  · simp only [Except.ok.injEq, Prod.mk.injEq] at h
    obtain ⟨-, rfl, rfl⟩ := h
    exact operatorTail_append cs
  · simp at h

end EnumForge.Lexeme
