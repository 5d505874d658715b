import EnumForge.Proofs.Token.Stream

/-!
# Where tokens stand

The tokens of a source stand one after the other, each from the byte where the text before it ends.
So a node of consecutive tokens covers the bytes from its first to its last token, which are the
bytes of its text without the trivia around it.
-/

namespace EnumForge

namespace Text

@[simp] theorem byteSize_nil : byteSize [] = 0 := rfl

@[simp] theorem byteSize_cons (c : Char) (cs : List Char) :
    byteSize (c :: cs) = c.utf8Size + byteSize cs := rfl

@[simp] theorem byteSize_append (cs ds : List Char) :
    byteSize (cs ++ ds) = byteSize cs + byteSize ds := by
  induction cs with
  | nil => simp
  | cons c cs ih => simp [ih, Nat.add_assoc]

theorem byteSize_toList (s : String) : byteSize s.toList = s.utf8ByteSize := by
  have h : ∀ cs : List Char, (String.ofList cs).utf8ByteSize = byteSize cs := by
    intro cs
    induction cs with
    | nil => rfl
    | cons c cs ih =>
      have hcons : String.ofList (c :: cs) = String.singleton c ++ String.ofList cs := by
        rw [← String.toList_inj]
        simp
      rw [hcons, String.utf8ByteSize_append, ih, String.utf8ByteSize_singleton, byteSize_cons]
  rw [← h, String.ofList_toList]

/-- A text is cut at a byte that one of its prefixes ends at. -/
theorem splitAtByte_byteSize (cs ds : List Char) :
    splitAtByte (byteSize cs) (cs ++ ds) = (cs, ds) := by
  induction cs with
  | nil => cases ds <;> rfl
  | cons c cs ih =>
    have hpos := c.utf8Size_pos
    obtain ⟨n, hn⟩ : ∃ n, byteSize (c :: cs) = n + 1 := ⟨byteSize (c :: cs) - 1, by simp; omega⟩
    have hsub : n + 1 - c.utf8Size = byteSize cs := by
      rw [← hn, byteSize_cons]
      omega
    rw [hn, List.cons_append, splitAtByte, hsub, ih]

end Text

open Text (Span)

namespace Token

/-- `Placed n ts`: the tokens stand one after the other in their source, the first with its leading
trivia from byte `n` on. -/
def Placed : Nat → List Token → Prop
  | _, [] => True
  | n, t :: ts =>
    t.span = some ⟨n + t.leading.text.utf8ByteSize,
      n + t.leading.text.utf8ByteSize + t.text.utf8ByteSize⟩ ∧
    Placed (n + t.source.utf8ByteSize) ts

theorem placed_append {n : Nat} {ts us : List Token} :
    Placed n (ts ++ us) ↔ Placed n ts ∧ Placed (n + Text.byteSize (listChars ts)) us := by
  induction ts generalizing n with
  | nil => simp [Placed]
  | cons t ts ih =>
    have hsize : n + Text.byteSize (listChars (t :: ts)) =
        n + t.source.utf8ByteSize + Text.byteSize (listChars ts) := by
      have hcons : listChars (t :: ts) = t.source.toList ++ listChars ts := rfl
      rw [hcons, Text.byteSize_append, Text.byteSize_toList, Nat.add_assoc]
    rw [List.cons_append, Placed, Placed, ih, hsize, and_assoc]

theorem size_source (t : Token) : t.source.utf8ByteSize =
    t.leading.text.utf8ByteSize + t.text.utf8ByteSize + t.trailing.text.utf8ByteSize := by
  simp only [source, String.utf8ByteSize_append]

/-- The spans of placed tokens extend a span that starts before them up to the last token. -/
theorem foldl_union_of_placed {n start stop : Nat} {t : Token} {ts : List Token}
    (h : Placed n (t :: ts)) (hstart : start ≤ n + t.leading.text.utf8ByteSize)
    (hstop : stop ≤ n + t.leading.text.utf8ByteSize + t.text.utf8ByteSize) :
    ((t :: ts).filterMap Token.span).foldl Span.union ⟨start, stop⟩ =
      ⟨start, n + t.leading.text.utf8ByteSize +
        (Node.trimmedTokens (t :: ts)).utf8ByteSize⟩ := by
  induction ts generalizing n stop t with
  | nil =>
    rw [List.filterMap_cons_some h.1, List.foldl_cons, Span.union, Nat.min_eq_left hstart,
      Nat.max_eq_right hstop]
    rfl
  | cons u ts ih =>
    have hsize := size_source t
    rw [List.filterMap_cons_some h.1, List.foldl_cons, Span.union, Nat.min_eq_left hstart,
      Nat.max_eq_right hstop, ih h.2 (by omega) (by omega)]
    simp only [Node.trimmedTokens, String.utf8ByteSize_append, Span.mk.injEq, true_and]
    omega

theorem le_start_of_placed {n : Nat} {ts : List Token} (h : Placed n ts) :
    ∀ t ∈ ts, ∃ s ∈ t.span, n ≤ s.start := by
  induction ts generalizing n with
  | nil => simp
  | cons t ts ih =>
    intro u hu
    obtain rfl | hu := List.mem_cons.1 hu
    · exact ⟨_, h.1, by simp⟩
    · obtain ⟨s, hs, hstart⟩ := ih h.2 u hu
      exact ⟨s, hs, by omega⟩

/-- Every token of a source starts behind those before it. -/
theorem pairwise_offset_of_placed {n : Nat} {ts : List Token} (h : Placed n ts)
    (htext : ∀ t ∈ ts, t.text ≠ "") : ts.Pairwise fun t u ↦ t.offset < u.offset := by
  induction ts generalizing n with
  | nil => exact .nil
  | cons t ts ih =>
    refine .cons ?_ (ih h.2 fun u hu ↦ htext u (List.mem_cons_of_mem t hu))
    intro u hu
    obtain ⟨s, hs, hstart⟩ := le_start_of_placed h.2 u hu
    have hpos : t.text.utf8ByteSize ≠ 0 := fun hzero ↦
      htext t List.mem_cons_self (String.utf8ByteSize_eq_zero_iff.1 hzero)
    have hsize := size_source t
    simp only [offset, h.1, Option.mem_def.1 hs, Option.map_some, Option.getD_some]
    omega

/-- No two tokens of a source have the same place. -/
theorem pairwise_span_of_placed {n : Nat} {ts : List Token} (h : Placed n ts)
    (htext : ∀ t ∈ ts, t.text ≠ "") : ts.Pairwise fun t u ↦ t.span ≠ u.span := by
  refine (pairwise_offset_of_placed h htext).imp fun {t u} hlt heq ↦ ?_
  rw [offset, offset, heq] at hlt
  exact Nat.lt_irrefl _ hlt

end Token

namespace Node

variable {α : Type} [Node α]

/-- A node of placed tokens covers the bytes of its trimmed text. -/
theorem span_of_placed {n : Nat} {a : α} (h : Token.Placed n (tokens a)) (hne : tokens a ≠ []) :
    span a = some ⟨n + (leading a).text.utf8ByteSize,
      n + (leading a).text.utf8ByteSize + (trimmed a).utf8ByteSize⟩ := by
  unfold span leading trimmed
  cases hts : tokens a with
  | nil => exact absurd hts hne
  | cons t ts =>
    rw [hts] at h
    have hfold := Token.foldl_union_of_placed h (Nat.le_refl _) (Nat.le_refl _)
    rw [List.filterMap_cons_some h.1] at hfold ⊢
    simp only [List.foldl_cons, Span.union, Nat.min_self, Nat.max_self] at hfold
    exact congrArg some hfold

theorem trimmedTokens_ne_empty {t : Token} (ht : t.text ≠ "") (ts : List Token) :
    trimmedTokens (t :: ts) ≠ "" := by
  intro hempty
  have hsize := congrArg String.utf8ByteSize hempty
  have hpos : t.text.utf8ByteSize ≠ 0 := fun hzero ↦ ht (String.utf8ByteSize_eq_zero_iff.1 hzero)
  cases ts with
  | nil => exact ht hempty
  | cons u us =>
    simp only [trimmedTokens, String.utf8ByteSize_append, String.utf8ByteSize_empty] at hsize
    omega

theorem trimmedTokens_withLeading (t : Token) (ts : List Token) (trivia : Trivia) :
    trimmedTokens (t.withLeading trivia :: ts) = trimmedTokens (t :: ts) := by
  cases ts <;> rfl

theorem trimmedTokens_withTrailing (ts : List Token) (t : Token) (trivia : Trivia) :
    trimmedTokens (ts ++ [t.withTrailing trivia]) = trimmedTokens (ts ++ [t]) := by
  induction ts with
  | nil => rfl
  | cons u ts ih =>
    cases ts with
    | nil => rfl
    | cons v ts => exact congrArg (u.text ++ u.trailing.text ++ v.leading.text ++ ·) ih

theorem trimmedTokens_append (t : Token) (ts : List Token) :
    t.leading.text ++ trimmedTokens (t :: ts) ++
        (((t :: ts).getLast?.map Token.trailing).getD .empty).text =
      String.join ((t :: ts).map Token.source) := by
  induction ts generalizing t with
  | nil => simp [trimmedTokens, Token.source, String.join]
  | cons u ts ih =>
    have hu := ih u
    rw [List.map_cons, String.join_cons, ← hu, List.getLast?_cons_cons]
    simp only [trimmedTokens, Token.source, String.append_assoc]

/-- The text of a node is its trimmed text between its leading and trailing trivia. -/
theorem source_eq_trimmed (a : α) :
    source a = (leading a).text ++ trimmed a ++ (trailing a).text := by
  unfold source leading trimmed trailing
  cases tokens a with
  | nil => simp [trimmedTokens, String.join]
  | cons t ts => exact (trimmedTokens_append t ts).symm

end Node

/-! ### The tokens of a source -/

namespace TokenStream

theorem placed_placeTokens (n : Nat) (ts : List Token) : Token.Placed n (placeTokens n ts).1 := by
  induction ts generalizing n with
  | nil => trivial
  | cons t ts ih => exact ⟨rfl, ih (n + t.source.utf8ByteSize)⟩

theorem placeTokens_snd (n : Nat) (ts : List Token) :
    (placeTokens n ts).2 = n + Text.byteSize (Token.listChars ts) := by
  induction ts generalizing n with
  | nil => rfl
  | cons t ts ih =>
    have hcons : Token.listChars (t :: ts) = t.source.toList ++ Token.listChars ts := rfl
    rw [placeTokens, ih, hcons, Text.byteSize_append, Text.byteSize_toList, Nat.add_assoc]

theorem placed_place (s : TokenStream) : Token.Placed 0 s.place.toList := by
  have hchars : Token.listChars (placeTokens 0 s.tokens).1 = Token.listChars s.tokens := by
    simp only [Token.listChars, ← List.flatMap_map (f := Token.source), map_source_placeTokens]
  refine Token.placed_append.2 ⟨placed_placeTokens 0 s.tokens, ?_⟩
  show Token.Placed (0 + Text.byteSize (Token.listChars (placeTokens 0 s.tokens).1))
    [placeToken (placeTokens 0 s.tokens).2 s.endOfFile]
  rw [hchars, placeTokens_snd]
  exact ⟨rfl, trivial⟩

theorem placed_of_ofSource {source : String} {s : TokenStream} (h : ofSource source = .ok s) :
    Token.Placed 0 s.toList := by
  obtain ⟨c, _, rfl⟩ := ofSource_eq_ok.1 h
  exact placed_place c

end TokenStream

end EnumForge
