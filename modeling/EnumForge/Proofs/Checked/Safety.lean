import EnumForge.Proofs.Checked.Item
import EnumForge.Proofs.Checked.Lexer
import EnumForge.Proofs.Token.Splice
import EnumForge.Proofs.Token.Tiling

/-!
# Reading is safe

Cutting tokens by byte positions and reading items with a cursor never runs into a fault, whatever
the source is: every slice is in range and between characters, every index is one of a token, no
counter of groups falls below zero, and every loop is done.  Both give what the readers over lists
give, item by item they go forward, and the end of the file is part of no item.
-/

namespace EnumForge

namespace Checked

open Text (LineColumn)
open Grammar (Reading)

/-- The whole way from a source to its file. -/
def parse (source : List Char) : Guarded SourceFile := do
  let tokens ← lex source
  file tokens

/-- What a run without a fault answers, with offsets turned into places of the source. -/
def answer? {α : Type} (source : String) : Guarded α → Option (Except (ParseError LineColumn) α)
  | .ok a => some (.ok a)
  | .error (.refused e) => some (.error (e.locate source))
  | .error (.fault _) => none

theorem answer?_ofReading {α : Type} (source : String) (r : Except (ParseError Nat) α) :
    answer? source (ofReading r) = some (r.mapError (·.locate source)) := by
  cases r <;> rfl

theorem ended_of_ofSource {source : String} {s : TokenStream}
    (h : TokenStream.ofSource source = .ok s) : Ended s where
  kind_endOfFile := congrArg Token.kind (TokenStream.bare_endOfFile h)
  text_endOfFile := congrArg Token.text (TokenStream.bare_endOfFile h)
  kind_ne t ht := (TokenStream.standsAlone_of_ofSource h t ht).kind_ne
  placed t ht := by
    obtain ⟨before, after, hlist⟩ := List.append_of_mem (List.mem_append_left [s.endOfFile] ht)
    rw [(TokenStream.lies_of_ofSource h hlist).span]
    rfl
  text_rightBrace t ht hkind := by
    obtain ⟨after, hcut, -⟩ := TokenStream.standsAlone_of_ofSource h t ht
    obtain ⟨c, htext, -⟩ := hcut.isPunctuation (by simp [hkind, Token.punctuationKinds])
    intro hactor
    simp [hactor] at htext

theorem parse_eq (source : String) : parse source.toList = ofReading (Grammar.file source) := by
  rw [parse, lex_eq, Grammar.file]
  cases hs : TokenStream.ofSource source with
  | error e => rfl
  | ok s =>
    change file s.toList = _
    rw [file_eq (ended_of_ofSource hs), ok_bind]
    cases Grammar.fileItems s.tokens <;> rfl

/-- An item moves the cursor forward, over the tokens that it takes, and never over the end of the
file. -/
theorem progress_of_itemFrom {s : TokenStream} (hs : Ended s) {fuel pos after : Nat} {m : Member}
    (hpos : pos < s.toList.length) (h : itemFrom s.toList fuel pos = .ok (m, after)) :
    pos < after ∧ after < s.toList.length ∧ Node.tokens m = (s.toList.take after).drop pos := by
  have hle : pos ≤ s.tokens.length := by simpa [TokenStream.toList, Nat.lt_succ_iff] using hpos
  have hsuffix := List.drop_suffix pos s.tokens
  have hindex : index s (s.tokens.drop pos) = pos := by
    rw [index, List.length_drop]
    omega
  rw [← hindex] at h
  obtain ⟨rest, hread, rfl⟩ := readItem_of_itemFrom hs hsuffix h
  obtain ⟨happend, hlt⟩ := append_of_readItem hread
  rw [List.length_drop] at hlt
  have hafter : index s rest = pos + (Node.tokens m).length := by
    have hlen := congrArg List.length happend
    rw [List.length_append, List.length_drop] at hlen
    rw [index]
    omega
  have hlast : s.toList.length = s.tokens.length + 1 := by simp [TokenStream.toList]
  refine ⟨by rw [index]; omega, by rw [hlast, index]; omega, ?_⟩
  have hall : s.toList = s.tokens.take pos ++ (Node.tokens m ++ (rest ++ [s.endOfFile])) := by
    rw [← List.append_assoc (Node.tokens m), happend, ← List.append_assoc, List.take_append_drop]
    rfl
  have htake : (s.tokens.take pos).length = pos := by
    rw [List.length_take]
    omega
  rw [hafter, hall, List.drop_take, List.drop_left' htake, Nat.add_sub_cancel_left, List.take_left]

/-- What it means that a source is read without a fault. -/
structure ReadsSafely (source : String) : Prop where
  /-- The tokens are cut without a fault, and `tokenize` answers the same. -/
  lex : answer? source (lex source.toList) = some (tokenize source)
  /-- The file is read without a fault, and `parseSource` answers the same. -/
  parse : answer? source (parse source.toList) = some (parseSource source)
  /-- An item that is read anywhere among the tokens, within any bound, takes the tokens from where
  the cursor was up to where it is then. -/
  progress : ∀ tokens, tokenize source = .ok tokens →
    ∀ fuel pos after m, pos < tokens.length → itemFrom tokens fuel pos = .ok (m, after) →
      pos < after ∧ after < tokens.length ∧ Node.tokens m = (tokens.take after).drop pos
  /-- The end of the file is the last token of a file and no other. -/
  endOfFile : ∀ file, parseSource source = .ok file →
    file.endOfFile.kind = .endOfFile ∧ ∀ t ∈ Node.tokens file.items, t.kind ≠ .endOfFile

end Checked

theorem readsSafely (source : String) : Checked.ReadsSafely source where
  lex := by
    rw [Checked.lex_eq, Checked.answer?_ofReading, tokenize]
    cases TokenStream.ofSource source <;> rfl
  parse := by
    rw [Checked.parse_eq, Checked.answer?_ofReading]
    rfl
  progress tokens htokens fuel pos after m hpos hitem := by
    obtain ⟨s, hs, rfl⟩ := tokenize_eq_ok.1 htokens
    exact Checked.progress_of_itemFrom (Checked.ended_of_ofSource hs) hpos hitem
  endOfFile file hfile := by
    obtain ⟨s, hs, hread, heof⟩ := parseSource_eq_ok.1 hfile
    have hended := Checked.ended_of_ofSource hs
    have hitems : Node.tokens file.items = s.tokens := by
      rw [Member.tokens_list, ← hread.tokens_append, List.append_nil]
    rw [heof, hitems]
    exact ⟨hended.kind_endOfFile, hended.kind_ne⟩

end EnumForge
