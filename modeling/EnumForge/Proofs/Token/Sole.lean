import EnumForge.Proofs.Token.Made
import EnumForge.Proofs.Token.Place
import EnumForge.Proofs.Token.Spreading

/-!
# Texts that are one token

Tokens that are built have no place, and their texts come from elsewhere: a literal from any text
that it stands for, an identifier from any name.  Both are what the lexer makes of the text.  A
literal of a text without line breaks is read as a single token and tells the text it stands for;
the names that are accepted are those that are read as a single identifier, less the two forms that
name no declaration.
-/

namespace EnumForge

open Lexeme
open Text (isWord isWordStart isWordPart isIdentifier isKeyword unticked? isAlphabetic isNumeric)
open Trivia (stops)

namespace Token

/-- The tokens of a text that is nothing but one token. -/
def sole (kind : TokenKind) (text : String) : List Token :=
  [{ plain kind text with span := some ⟨0, text.utf8ByteSize⟩ },
    { plain .endOfFile "" with span := some ⟨text.utf8ByteSize, text.utf8ByteSize⟩ }]

/-- The text is read as one token of the kind, with no trivia around it. -/
def IsSole (kind : TokenKind) (text : String) : Prop :=
  ∃ t e, tokenize text = .ok [t, e] ∧ t.detached = plain kind text ∧ e.kind = .endOfFile

section

variable {kind : TokenKind} {text : String}

/-- Nothing but the text itself decides whether it is one token. -/
theorem IsSole.cutBefore (h : IsSole kind text) :
    (plain kind text).CutBefore [] ∧ stops false text.toList = true := by
  obtain ⟨t, e, htokens, ht, -⟩ := h
  obtain ⟨s, hs, hlist⟩ := tokenize_eq_ok.1 htokens
  obtain ⟨u, us, hus, hspelled, ps, hgap, -⟩ := TokenStream.spelled_of_ofSource hs
  have hchars := TokenStream.listChars_of_ofSource hs
  have hdetached : (u :: us).map detached = [plain kind text, e.detached] := by
    rw [← hus, ← hlist, ← ht]
    rfl
  rw [← spelled_map_detached, hdetached] at hspelled
  rw [← bodyChars_map_detached, hdetached] at hgap
  -- The text of the token is the whole source, so nothing is left for the end of the file.
  have hrest : listChars [e.detached] = [] := by
    rw [hus, ← listChars_map_detached, hdetached, listChars_cons] at hchars
    simpa [plain] using hchars
  have hcut := hspelled.1
  have hstop := hgap.stops_after
  rw [bodyChars] at hstop
  rw [hrest] at hcut hstop
  exact ⟨hcut, by simpa [plain] using hstop⟩

theorem tokenize_of_cutBefore (hcut : (plain kind text).CutBefore [])
    (hstop : stops false text.toList = true) : tokenize text = .ok (sole kind text) := by
  have hspelled : Spelled [plain kind text, plain .endOfFile ""] := by
    refine ⟨hcut, ⟨[], rfl, .stop rfl⟩, ⟨[], rfl, .stop rfl⟩, rfl, rfl, rfl⟩
  have hbody : bodyChars [plain kind text, plain .endOfFile ""] = text.toList := by
    simp [bodyChars, plain]
  have hstart : TokenStream.StartsFile .empty
      (bodyChars [plain kind text, plain .endOfFile ""]) := by
    rw [hbody]
    exact ⟨[], .stop hstop, .inl ⟨rfl, hcut.head?_ne⟩⟩
  obtain ⟨s, hs, hmap⟩ := TokenStream.ofSource_of_spelled hspelled hstart
  rw [listChars_eq_bodyChars, hbody] at hs
  have hsource : TokenStream.ofSource text = .ok s := by
    simpa [plain] using hs
  have hplaced := TokenStream.placed_of_ofSource hsource
  refine tokenize_eq_ok.2 ⟨s, hsource, ?_⟩
  obtain ⟨t, ts, hts, ht, hrest⟩ := List.map_eq_cons_iff.1 hmap
  obtain ⟨e, es, rfl, he, hnil⟩ := List.map_eq_cons_iff.1 hrest
  obtain rfl := List.map_eq_nil_iff.1 hnil
  rw [hts] at hplaced ⊢
  obtain ⟨hfirst, hlast, -⟩ := hplaced
  obtain ⟨tkind, ttext, tleading, ttrailing, tspan⟩ := t
  obtain ⟨ekind, etext, eleading, etrailing, espan⟩ := e
  simp only [detached, plain, Token.mk.injEq, and_true] at ht he
  obtain ⟨rfl, rfl, rfl, rfl⟩ := ht
  obtain ⟨rfl, rfl, rfl, rfl⟩ := he
  simp only [source, Trivia.text_empty, String.empty_append, String.append_empty,
    String.utf8ByteSize_empty, Nat.zero_add, Nat.add_zero] at hfirst hlast
  rw [hfirst, hlast]
  rfl

/-- A token that is a whole text covers it. -/
theorem isSole_iff : IsSole kind text ↔ tokenize text = .ok (sole kind text) := by
  constructor
  · intro h
    exact tokenize_of_cutBefore h.cutBefore.1 h.cutBefore.2
  · intro h
    exact ⟨_, _, h, rfl, rfl⟩

theorem Made.isSole (h : (plain kind text).Made) : IsSole kind text := by
  have hstop := h.stops []
  rw [List.append_nil] at hstop
  exact isSole_iff.2 (tokenize_of_cutBefore h.cut hstop)

end

/-! ### String literals -/

/-- The characters that escaped ones stand for. -/
def unescape : List Char → List Char
  | [] => []
  | '\\' :: c :: cs => c :: unescape cs
  | c :: cs => c :: unescape cs

/-- The text that a literal stands for. -/
def literalValue (text : String) : String :=
  String.ofList (unescape (text.toList.drop 1).dropLast)

theorem unescape_escape (cs : List Char) : unescape (escape cs) = cs := by
  induction cs with
  | nil => rfl
  | cons c cs ih =>
    rw [escape]
    split
    next => rw [unescape, ih]
    next hplain =>
      have hslash : c ≠ '\\' := fun hc ↦ hplain (.inr hc)
      rw [unescape.eq_3 _ _ fun d ds hc ↦ absurd hc hslash, ih]

/-- `c` written with a backslash before it wherever it stands. -/
def protect (c : Char) (cs : List Char) : List Char :=
  cs.flatMap fun d ↦ if d = c then ['\\', c] else [d]

/-- Backslashes are protected first, so those that protect a quote stay single. -/
theorem escape_eq_protect (cs : List Char) : escape cs = protect '\x22' (protect '\\' cs) := by
  induction cs with
  | nil => rfl
  | cons c cs ih =>
    rw [escape, ih]
    by_cases hslash : c = '\\'
    · simp [hslash, protect]
    · by_cases hquote : c = '\x22' <;> simp [hslash, hquote, protect]

example : protect '\\' (protect '\x22' ['\x22']) ≠ escape ['\x22'] := by decide

theorem literalValue_stringLiteral (value : String) :
    literalValue (stringLiteral value).text = value := by
  rw [literalValue, toList_text_stringLiteral, List.drop_one, List.tail_cons, List.dropLast_concat,
    unescape_escape, String.ofList_toList]

/-- No backslash protects a line break of the value. -/
theorem closeQuote?_escape_of_mem {value : List Char} (h : '\n' ∈ value) (rest : List Char) :
    closeQuote? (escape value ++ rest) = none := by
  induction value with
  | nil => simp at h
  | cons c value ih =>
    rw [escape]
    split
    next hquoted =>
      have hvalue : '\n' ∈ value := by
        rcases List.mem_cons.1 h with rfl | hvalue
        · simp at hquoted
        · exact hvalue
      simp [closeQuote?, ih hvalue]
    next hplain =>
      simp only [not_or] at hplain
      by_cases hline : c = '\n'
      · subst hline
        rfl
      · have hvalue : '\n' ∈ value := (List.mem_cons.1 h).resolve_left (Ne.symm hline)
        rw [List.cons_append, closeQuote?.eq_6 _ _ hplain.2 hplain.1 hline, ih hvalue]
        rfl

theorem isSole_stringLiteral_iff (value : String) :
    IsSole .stringLiteral (stringLiteral value).text ↔ '\n' ∉ value.toList := by
  constructor
  · intro hsole hline
    obtain ⟨c, tail, htext, hrule⟩ := hsole.cutBefore.1
    have hchars := toList_text_stringLiteral value
    have hboth : '\x22' :: (escape value.toList ++ ['\x22']) = c :: tail := hchars.symm.trans htext
    obtain ⟨rfl, rfl⟩ := List.cons.inj hboth
    have hcut := cut_of_rule hrule
    rw [List.append_nil, cut, if_pos rfl, closeString?_escape,
      closeQuote?_escape_of_mem hline] at hcut
    simp at hcut
  · intro hline
    exact (made_stringLiteral hline).isSole

/-- The literal of a value is read as a single token if and only if no line break stands in the
value.  The value is read off the literal, so the literals of two values differ. -/
theorem tokenize_stringLiteral (value : String) :
    (tokenize (stringLiteral value).text =
        .ok (sole .stringLiteral (stringLiteral value).text) ↔ '\n' ∉ value.toList) ∧
      literalValue (stringLiteral value).text = value ∧
      ∀ other, (stringLiteral other).text = (stringLiteral value).text → other = value := by
  refine ⟨isSole_iff.symm.trans (isSole_stringLiteral_iff value),
    literalValue_stringLiteral value, fun other hsame ↦ ?_⟩
  calc other = literalValue (stringLiteral other).text := (literalValue_stringLiteral other).symm
    _ = literalValue (stringLiteral value).text := by rw [hsame]
    _ = value := literalValue_stringLiteral value

end Token

/-! ### Identifiers -/

namespace Lexeme

theorem punctuation?_ne (c : Char) : punctuation? c ≠ some .identifier := by
  unfold punctuation?
  split <;> simp

theorem operatorKind_ne (text : List Char) : operatorKind text ≠ .identifier := by
  unfold operatorKind
  split
  · simp
  · split <;> simp

/-- An identifier is cut by one of two rules: anything between back-ticks, or a word. -/
theorem Rule.of_identifier {c : Char} {kind : TokenKind} {tail after : List Char}
    (h : Rule c kind tail after) (hkind : kind = .identifier) :
    (c = '\x60' ∧ ∃ inner, tail = inner ++ ['\x60']) ∨
      ((c = '$' ∨ isWordStart c = true) ∧ wordKind (c :: tail) = .identifier ∧
        ∀ d ∈ tail, isWordPart d = true) := by
  cases h with
  | string | number | rawString | directive | hash => simp at hkind
  | ticked hc hclose =>
    obtain ⟨⟨inner, rest⟩, -, hbody⟩ := Option.bind_eq_some_iff.1 hclose
    simp only [Option.ite_none_left_eq_some, Option.some.injEq, Prod.mk.injEq] at hbody
    exact .inl ⟨hc, inner, hbody.2.1.symm⟩
  | word hc hword => exact .inr ⟨by simpa using hc, hkind, (wordTail_eq_iff.1 hword).1⟩
  | punctuation hc => exact absurd (hkind ▸ hc) (punctuation?_ne c)
  | operator => exact absurd hkind (operatorKind_ne _)

end Lexeme

namespace Text

theorem isWord_iff {cs : List Char} : isWord cs = true ↔
    ∃ c rest, cs = c :: rest ∧ (c = '_' ∨ isAlphabetic c = true) ∧
      ∀ d ∈ rest, d = '_' ∨ isAlphabetic d = true ∨ isNumeric d = true := by
  cases cs with
  | nil => simp [isWord]
  | cons c rest => simp [isWord, isWordStart, isWordPart, or_assoc]

theorem unticked?_ticked (inner : List Char) :
    unticked? ('\x60' :: (inner ++ ['\x60'])) = some inner := by
  simp [unticked?]

theorem unticked?_of_ne {c : Char} (hc : c ≠ '\x60') (cs : List Char) :
    unticked? (c :: cs) = none := by
  simp [unticked?, hc]

/-- A word that is cut as an identifier is one, unless it starts with a dollar sign. -/
theorem isIdentifier_of_wordKind {text : String} {c : Char} {tail : List Char}
    (htext : text.toList = c :: tail) (hc : isWordStart c = true)
    (hkind : Lexeme.wordKind (c :: tail) = .identifier) (htail : ∀ d ∈ tail, isWordPart d = true) :
    isIdentifier text = true := by
  have htick : c ≠ '\x60' := by
    rintro rfl
    simp [isWordStart, show isAlphabetic '\x60' = false by decide] at hc
  have hkeyword : isKeyword text = false := by
    rw [← htext, Lexeme.wordKind, String.ofList_toList] at hkind
    split at hkind
    next => simp at hkind
    next hplain => simpa using hplain
  rw [isIdentifier, htext, unticked?_of_ne htick]
  simpa [hkeyword, isWord, hc] using htail

end Text

namespace Token

theorem exists_identifier_eq_ok {text : String} :
    (∃ t, identifier text = .ok t) ↔ isIdentifier text = true := by
  unfold identifier
  split <;> simp [*]

/-- A text is accepted as an identifier if and only if it is read as one, starts with no dollar
sign, and has a word between its back-ticks if it has any. -/
theorem exists_identifier_iff (text : String) :
    (∃ t, identifier text = .ok t) ↔
      IsSole .identifier text ∧ text.toList.head? ≠ some '$' ∧
        ∀ inner, text.toList = '\x60' :: (inner ++ ['\x60']) →
          ∃ c rest, inner = c :: rest ∧ (c = '_' ∨ isAlphabetic c = true) ∧
            ∀ d ∈ rest, d = '_' ∨ isAlphabetic d = true ∨ isNumeric d = true := by
  rw [exists_identifier_eq_ok]
  constructor
  · intro h
    refine ⟨(made_identifier h).isSole, fun hdollar ↦ ?_, fun inner htext ↦ ?_⟩
    · obtain ⟨rest, htext⟩ := List.head?_eq_some_iff.1 hdollar
      rw [isIdentifier, htext, Text.unticked?_of_ne (by decide)] at h
      simp [isWord, isWordStart, show isAlphabetic '$' = false by decide] at h
    · rw [isIdentifier, htext, Text.unticked?_ticked] at h
      exact Text.isWord_iff.1 h
  · rintro ⟨hsole, hdollar, hticks⟩
    obtain ⟨c, tail, htext, hrule⟩ := hsole.cutBefore.1
    have hchars : text.toList = c :: tail := htext
    rcases hrule.of_identifier rfl with ⟨rfl, inner, rfl⟩ | ⟨hc, hkind, htail⟩
    · rw [isIdentifier, hchars, Text.unticked?_ticked]
      exact Text.isWord_iff.2 (hticks inner hchars)
    · have hstart : isWordStart c = true := by
        refine hc.resolve_left fun heq ↦ hdollar ?_
        rw [hchars, heq, List.head?_cons]
      exact Text.isIdentifier_of_wordKind hchars hstart hkind htail

end Token

end EnumForge
