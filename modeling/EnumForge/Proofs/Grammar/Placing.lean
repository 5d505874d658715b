import EnumForge.Proofs.Grammar.Conservation
import EnumForge.Proofs.Text.Position
import EnumForge.Proofs.Token.Tiling
import EnumForge.Proofs.Tree.Annotations

/-!
# Where tokens and attributes are reported

No token starts with a line break, so the place of every token comes behind those of the tokens
before it, and so does the place of every attribute behind those of the attributes before it: what
is reported at one place is about one of them.
-/

namespace EnumForge

open Text (LineColumn bytes byteSize isVisible)

theorem Text.isVisible_append {c : Char} (hc : c ≠ '\n' ∧ c ≠ '\r') (before after : List Char) :
    isVisible (bytes (before ++ c :: after)) (byteSize before) = true := by
  have hshift : (bytes (before ++ c :: after))[byteSize before]? = (bytes (c :: after))[0]? := by
    rw [bytes_append, ← length_bytes, List.getElem?_append_right (Nat.le_refl _), Nat.sub_self]
  rw [isVisible, hshift]
  exact isVisible_of_ne hc c.utf8Size_pos after

namespace Node

variable {α : Type} [Node α]

/-- The line and the column at which the node starts. -/
def place? (source : String) (a : α) : Option LineColumn :=
  (span a).map fun s ↦ LineColumn.ofOffset source s.start

/-- Both nodes have a place, and that of `a` comes first. -/
def PlacedBefore (source : String) (a b : α) : Prop :=
  ∃ x ∈ place? source a, ∃ y ∈ place? source b, x < y

theorem span_token (t : Token) : span t = t.span := by
  cases h : t.span <;> simp [span, tokens, h]

/-- A node starts where its first token starts. -/
theorem place?_of_placed {n : Nat} {a : α} {t : Token} {ts : List Token} (ha : tokens a = t :: ts)
    (h : Token.Placed n (tokens a)) (source : String) : place? source a = place? source t := by
  have hspan := span_of_placed h (by simp [ha])
  have hleading : leading a = t.leading := by simp [leading, ha]
  rw [ha] at h
  rw [place?, place?, hspan, span_token, h.1, hleading]
  rfl

end Node

/-! ### Tokens -/

namespace TokenStream

variable {source : String} {s : TokenStream}

/-- The first byte of a token belongs to no line break. -/
theorem isVisible_of_mem_tokens (h : ofSource source = .ok s) {t : Token} (ht : t ∈ s.tokens) :
    ∃ r ∈ t.span, r.start < r.stop ∧ isVisible (bytes source.toList) r.start = true := by
  obtain ⟨after, ⟨c, tail, htext, -⟩, hstop⟩ := standsAlone_of_ofSource h t ht
  have hc : c ≠ '\n' ∧ c ≠ '\r' := by
    rw [htext] at hstop
    simp only [List.cons_append, Trivia.stops, Bool.false_or, Bool.and_eq_true, bne_iff_ne] at hstop
    exact hstop.1.2
  obtain ⟨before, rest, hlist⟩ := List.append_of_mem ht
  have hstream : s.toList = before ++ t :: (rest ++ [s.endOfFile]) := by
    rw [toList, hlist, List.append_assoc, List.cons_append]
  refine ⟨_, (lies_of_ofSource h hstream).span, ?_, ?_⟩
  · have hpos : t.text.utf8ByteSize ≠ 0 := fun hzero ↦
      text_ne_empty_of_ofSource h ht (String.utf8ByteSize_eq_zero_iff.1 hzero)
    dsimp only
    omega
  · have hstart : (String.join (before.map Token.source) ++ t.leading.text).utf8ByteSize =
        byteSize (Token.listChars before ++ t.leading.text.toList) := by
      rw [String.utf8ByteSize_append, Token.size_join, Text.byteSize_append, Text.byteSize_toList]
    have hchars : source.toList = Token.listChars before ++ t.leading.text.toList ++
        c :: (tail ++ (t.trailing.text.toList ++ Token.listChars (rest ++ [s.endOfFile]))) := by
      rw [← listChars_of_ofSource h, hstream, Token.listChars_append, Token.listChars_cons, htext]
      simp
    dsimp only
    rw [hstart, hchars]
    exact Text.isVisible_append hc _ _

/-- Every token starts at a later place than those before it, the end of the file included. -/
theorem pairwise_placedBefore (h : ofSource source = .ok s) :
    s.toList.Pairwise (Node.PlacedBefore source) := by
  have hstep {t u : Token} (ht : t ∈ s.tokens)
      (htu : ∃ r ∈ t.span, ∃ q ∈ u.span, r.stop ≤ q.start) : Node.PlacedBefore source t u := by
    obtain ⟨r, hr, q, hq, hle⟩ := htu
    obtain ⟨r', hr', hlt, hvisible⟩ := isVisible_of_mem_tokens h ht
    obtain rfl : r = r' := Option.mem_unique hr hr'
    refine ⟨.ofOffset source r.start, ?_, .ofOffset source q.start, ?_, ?_⟩
    · rw [Node.place?, Node.span_token]
      exact Option.mem_map_of_mem _ hr
    · rw [Node.place?, Node.span_token]
      exact Option.mem_map_of_mem _ hq
    · exact LineColumn.ofOffset_lt_of_isVisible hvisible (hlt.trans_le hle)
  have hstop := Token.pairwise_stop_of_placed (placed_of_ofSource h)
  obtain ⟨htokens, hend, hlast⟩ := List.pairwise_append.1 hstop
  refine List.pairwise_append.2 ⟨?_, List.pairwise_singleton _ _, fun t ht u hu ↦ ?_⟩
  · exact htokens.imp_of_mem fun ht _ ↦ hstep ht
  · exact hstep ht (hlast t ht u hu)

end TokenStream

/-! ### Attributes -/

/-- Every attribute of a file starts at a later place than those before it. -/
theorem SourceFile.pairwise_placedBefore {source : String} {file : SourceFile}
    (h : parseSource source = .ok file) :
    file.annotations.Pairwise (Node.PlacedBefore source) := by
  obtain ⟨s, hs, htokens⟩ := tokens_of_parseSource h
  have hplace : ∀ a ∈ file.annotations,
      Node.place? source a = Node.place? source a.atSign := by
    intro a ha
    have hcontains := SourceFile.mem_annotations_iff.1 ha
    have hinfix : Node.tokens a <:+: s.toList := htokens ▸ hcontains.tokens_infix
    obtain ⟨before, after, hsplit⟩ := hinfix
    have hplaced := TokenStream.placed_of_ofSource hs
    rw [← hsplit, List.append_assoc] at hplaced
    obtain ⟨-, hrest⟩ := Token.placed_append.1 hplaced
    exact Node.place?_of_placed rfl (Token.placed_append.1 hrest).1 source
  have hsigns := (TokenStream.pairwise_placedBefore hs).sublist (htokens ▸ file.sublist_tokens)
  refine (List.pairwise_map.1 hsigns).imp_of_mem fun ha hb hbefore ↦ ?_
  rwa [Node.PlacedBefore, hplace _ ha, hplace _ hb]

/-! ### All places of a source -/

/-- How the places of a source follow each other. -/
structure PlacesAscend (source : String) : Prop where
  /-- A line break counts once its last byte lies before the offset, and columns count the bytes
  since then. -/
  counted : ∀ p, LineColumn.ofOffset source p = LineColumn.counted (bytes source.toList) p
  monotone : Monotone (LineColumn.ofOffset source)
  /-- Offsets past the end stand for the end. -/
  clamped : ∀ p, LineColumn.ofOffset source p =
    LineColumn.ofOffset source (min p source.utf8ByteSize)
  /-- The tokens start at later and later places, and the file ends at a later one still. -/
  tokens : ∀ ts, tokenize source = .ok ts → ts.Pairwise (Node.PlacedBefore source)
  /-- So do all attributes that stand in the file, at any depth. -/
  attributes : ∀ file, parseSource source = .ok file →
    (∀ a, a ∈ file.annotations ↔ (Part.file file).Contains (Part.attr a)) ∧
      file.annotations.Pairwise (Node.PlacedBefore source)

theorem placesAscend (source : String) : PlacesAscend source where
  counted := LineColumn.ofOffset_eq_counted source
  monotone := LineColumn.ofOffset_monotone source
  clamped p := by rw [← Text.byteSize_toList, LineColumn.ofOffset_min]
  tokens ts h := by
    obtain ⟨s, hs, rfl⟩ := tokenize_eq_ok.1 h
    exact TokenStream.pairwise_placedBefore hs
  attributes file h := ⟨fun _ ↦ SourceFile.mem_annotations_iff, SourceFile.pairwise_placedBefore h⟩

end EnumForge
