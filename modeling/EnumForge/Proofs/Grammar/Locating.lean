import EnumForge.Proofs.Grammar.Conservation
import EnumForge.Proofs.Grammar.Opening
import EnumForge.Proofs.Token.Place
import EnumForge.Tree.Path

/-!
# Where declarations stand

A member that is found in a file, at any depth, is made of consecutive tokens of the source, and its
declaration of at least one.  So the declaration covers a part of the source: the bytes of its text
without the trivia around it, which are some.
-/

namespace EnumForge

open Text (Span)

/-- The span covers `text` in the source: it starts and stops between characters. -/
def Text.Span.Covers (s : Span) (source text : String) : Prop :=
  ∃ before after, source = before ++ text ++ after ∧
    s = ⟨before.utf8ByteSize, before.utf8ByteSize + text.utf8ByteSize⟩

/-- The span covers some characters of the source, and whole ones. -/
def Text.Span.Within (source : String) (s : Span) : Prop :=
  ∃ before inner after, source = before ++ inner ++ after ∧ inner ≠ "" ∧
    s = ⟨before.utf8ByteSize, before.utf8ByteSize + inner.utf8ByteSize⟩

theorem Text.Span.Within.start_lt_stop {source : String} {s : Span} (h : s.Within source) :
    s.start < s.stop := by
  obtain ⟨before, inner, after, -, hne, rfl⟩ := h
  have hpos := String.utf8ByteSize_eq_zero_iff.not.2 hne
  dsimp only
  omega

/-! ### Members at any depth -/

namespace Member

theorem infix_tokens_of_members (m : Member) : listTokens m.decl.members <:+: Node.tokens m := by
  obtain ⟨decl, semicolon⟩ := m
  have hblock (head : List Token) (b : MemberBlock) :
      listTokens b.members <:+: (head ++ b.tokens) ++ Node.tokens semicolon := by
    obtain ⟨left, ms, right⟩ := b
    exact ⟨head ++ [left], [right] ++ Node.tokens semicolon, by simp [MemberBlock.tokens]⟩
  cases decl with
  | enum d | nominal d | extension d =>
    obtain ⟨head, block⟩ := d
    exact hblock (Node.tokens head) block
  | enumCase | binding | raw => exact List.nil_infix

theorem tokens_infix_of_mem {m : Member} {ms : List Member} (h : m ∈ ms) :
    Node.tokens m <:+: listTokens ms := by
  obtain ⟨before, after, rfl⟩ := List.append_of_mem h
  rw [← tokens_list]
  exact ⟨Node.tokens before, Node.tokens after, by simp [Node.tokens]⟩

/-- A member at any depth is made of consecutive tokens. -/
theorem tokens_infix_of_find? {path : List Nat} {ms : List Member} {m : Member}
    (h : find? path ms = some m) : Node.tokens m <:+: listTokens ms := by
  fun_induction find? path ms with
  | case1 => simp at h
  | case2 ms i => exact tokens_infix_of_mem (List.mem_of_getElem? h)
  | case3 ms i path hpath ih =>
    obtain ⟨outer, houter, h⟩ := Option.bind_eq_some_iff.1 h
    have hinner := (ih outer h).trans (infix_tokens_of_members outer)
    exact hinner.trans (tokens_infix_of_mem (List.mem_of_getElem? houter))

theorem find?_nil (path : List Nat) : find? path [] = none := by
  cases path with
  | nil => rfl
  | cons i path => cases path <;> rfl

/-- A member is found at the head of a list, inside its head, or in its tail. -/
theorem cases_of_find?_cons {path : List Nat} {first m : Member} {ms : List Member}
    (h : find? path (first :: ms) = some m) :
    m = first ∨ (∃ path', find? path' first.decl.members = some m) ∨
      ∃ path', find? path' ms = some m := by
  cases path with
  | nil => simp [find?] at h
  | cons i path =>
    cases path with
    | nil =>
      cases i with
      | zero => exact .inl (Option.some.inj h).symm
      | succ i => exact .inr (.inr ⟨[i], h⟩)
    | cons j path =>
      cases i with
      | zero => exact .inr (.inl ⟨j :: path, h⟩)
      | succ i => exact .inr (.inr ⟨i :: j :: path, h⟩)

/-- What holds of every declaration among the members, at any depth, holds of each of them and of
the declarations inside it. -/
theorem forall_find?_of_mem {P : Decl → Prop} {ms : List Member}
    (h : ∀ path m, find? path ms = some m → P m.decl) {m : Member} (hm : m ∈ ms) :
    P m.decl ∧ ∀ path inner, find? path m.decl.members = some inner → P inner.decl := by
  obtain ⟨i, hi⟩ := List.mem_iff_getElem?.1 hm
  refine ⟨h [i] m hi, fun path inner hinner ↦ ?_⟩
  cases path with
  | nil => cases hinner
  | cons j path =>
    refine h (i :: j :: path) inner ?_
    rw [find?, hi]
    · exact hinner
    · exact List.cons_ne_nil j path

end Member

namespace Grammar

/-- The opening `o` starts the declaration `d`. -/
def Opening.Starts : Opening → Decl → Prop
  | leaf d', d => d = d'
  | group head, d => ∃ block, d = head.withBlock block

theorem Opening.Starts.tokens_prefix {o : Opening} {d : Decl} (h : o.Starts d) :
    o.tokens <+: Node.tokens d := by
  cases o with
  | leaf d' =>
    obtain rfl : d = d' := h
    exact List.prefix_rfl
  | group head =>
    obtain ⟨block, rfl⟩ := h
    have hblock := head.tokens_withBlock block
    exact ⟨block.tokens, hblock.symm⟩

/-- Whatever declaration is found among the items was read from its opening on. -/
theorem ItemsRead.exists_opening {ts last : List Token} {ms : List Member}
    (h : ItemsRead ts ms last) {path : List Nat} {m : Member}
    (hfind : Member.find? path ms = some m) :
    ∃ us o rest, us <:+ ts ∧ opening us = .ok (o, rest) ∧ o.Starts m.decl := by
  have hsemi (d : Decl) (us : List Token) : (withSemicolon d us).2 <:+ us :=
    ⟨_, takeKind_append .semicolon us⟩
  induction h generalizing path with
  | done => simp [Member.find?_nil] at hfind
  | @leaf ts after last d ms _ hopen _ ih =>
    obtain rfl | ⟨path', hinner⟩ | ⟨path', hrest⟩ := Member.cases_of_find?_cons hfind
    · exact ⟨ts, .leaf d, after, List.suffix_rfl, hopen, rfl⟩
    · have hblock : d.block? = none := by
        have hleaf := isGroup_of_leaf hopen
        rwa [Decl.isGroup, Option.isSome_eq_false_iff, Option.isNone_iff_eq_none] at hleaf
      have hmembers : (withSemicolon d after).1.decl.members = [] := by
        simp [withSemicolon, Decl.members, hblock]
      rw [hmembers, Member.find?_nil] at hinner
      cases hinner
    · obtain ⟨us, o, rest, hus, hread⟩ := ih hrest
      have hafter : after <:+ ts := ⟨_, (append_of_opening hopen).1⟩
      exact ⟨us, o, rest, hus.trans ((hsemi d after).trans hafter), hread⟩
  | @group ts after inner closing outer last head left right members ms _ hopen hleft hblock
      hright _ ihblock ih =>
    have hafter : after <:+ ts := ⟨_, (append_of_opening hopen).1⟩
    have hinner' : inner <:+ after := ⟨_, reads_expect _ _ _ _ _ hleft⟩
    have hinner : inner <:+ ts := hinner'.trans hafter
    obtain rfl | ⟨path', hfind⟩ | ⟨path', hrest⟩ := Member.cases_of_find?_cons hfind
    · exact ⟨ts, .group head, after, List.suffix_rfl, hopen, _, rfl⟩
    · have hmembers : (head.withBlock ⟨left, members, right⟩).members = members := by
        cases head <;> rfl
      obtain ⟨us, o, rest, hus, hread⟩ := ihblock (hmembers ▸ hfind)
      exact ⟨us, o, rest, hus.trans hinner, hread⟩
    · obtain ⟨us, o, rest, hus, hread⟩ := ih hrest
      have hclosing : closing <:+ inner := ⟨_, hblock.tokens_append⟩
      have houter : outer <:+ closing := ⟨_, reads_expect _ _ _ _ _ hright⟩
      exact ⟨us, o, rest, hus.trans ((hsemi _ outer).trans (houter.trans (hclosing.trans hinner))),
        hread⟩

theorem tokens_ne_nil_of_opening {ts rest : List Token} {o : Opening} {d : Decl}
    (hopen : opening ts = .ok (o, rest)) (hstarts : o.Starts d) : Node.tokens d ≠ [] := by
  obtain ⟨happend, hlt⟩ := append_of_opening hopen
  intro hnil
  have ho : o.tokens = [] := List.prefix_nil.1 (hnil ▸ hstarts.tokens_prefix)
  rw [ho, List.nil_append] at happend
  rw [happend] at hlt
  exact Nat.lt_irrefl _ hlt

/-- No declaration is read off without a token. -/
theorem ItemsRead.tokens_ne_nil {ts last : List Token} {ms : List Member}
    (h : ItemsRead ts ms last) {path : List Nat} {m : Member}
    (hfind : Member.find? path ms = some m) : Node.tokens m.decl ≠ [] := by
  obtain ⟨us, o, rest, -, hopen, hstarts⟩ := h.exists_opening hfind
  exact tokens_ne_nil_of_opening hopen hstarts

end Grammar

/-! ### Nodes of consecutive tokens -/

/-- A node of consecutive tokens of a source covers its trimmed text there. -/
theorem Node.exists_span_covers {α : Type} [Node α] {source : String} {s : TokenStream}
    (hs : TokenStream.ofSource source = .ok s) {a : α} (hsub : Node.tokens a <:+: s.toList)
    (hne : Node.tokens a ≠ []) :
    ∃ span, Node.span a = some span ∧ span.Covers source (Node.trimmed a) := by
  obtain ⟨before, after, hsplit⟩ := hsub
  have hplaced := TokenStream.placed_of_ofSource hs
  rw [← hsplit, List.append_assoc] at hplaced
  have hnode := (Token.placed_append.1 (Token.placed_append.1 hplaced).2).1
  have hchars := TokenStream.listChars_of_ofSource hs
  rw [← hsplit] at hchars
  simp only [Token.listChars_append, ← Node.toList_source a, Node.source_eq_trimmed a,
    String.toList_append] at hchars
  refine ⟨_, Node.span_of_placed hnode hne,
    String.ofList (Token.listChars before) ++ (Node.leading a).text,
    (Node.trailing a).text ++ String.ofList (Token.listChars after), ?_, ?_⟩
  · rw [← String.toList_inj, ← hchars]
    simp
  · have hsize := Text.byteSize_toList (String.ofList (Token.listChars before))
    rw [String.toList_ofList] at hsize
    rw [Nat.zero_add, String.utf8ByteSize_append, hsize]

theorem Node.exists_span_within {α : Type} [Node α] {source : String} {s : TokenStream}
    (hs : TokenStream.ofSource source = .ok s) {a : α} (hsub : Node.tokens a <:+: s.tokens)
    (hne : Node.tokens a ≠ []) : ∃ span, Node.span a = some span ∧ span.Within source := by
  have htext : Node.trimmed a ≠ "" := by
    obtain ⟨t, ts, hts⟩ := List.exists_cons_of_ne_nil hne
    have hmem : t ∈ s.tokens := hsub.subset (by simp [hts])
    rw [Node.trimmed, hts]
    exact Node.trimmedTokens_ne_empty (TokenStream.text_ne_empty_of_ofSource hs hmem) ts
  have hlist := hsub.trans (List.prefix_append s.tokens [s.endOfFile]).isInfix
  obtain ⟨span, hspan, before, after, hsource, rfl⟩ := Node.exists_span_covers hs hlist hne
  exact ⟨_, hspan, before, Node.trimmed a, after, hsource, htext, rfl⟩

/-- Every declaration of a file covers a part of its source. -/
theorem exists_span_of_find? {source : String} {file : SourceFile}
    (hparse : parseSource source = .ok file) {path : List Nat} {m : Member}
    (hfind : Member.find? path file.items = some m) :
    ∃ span, Node.span m.decl = some span ∧ span.Within source := by
  obtain ⟨s, hs, hread, -⟩ := parseSource_eq_ok.1 hparse
  have hitems := hread.tokens_append
  rw [List.append_nil] at hitems
  have hdecl : Node.tokens m.decl <:+: Node.tokens m := by
    cases m
    exact (List.prefix_append _ _).isInfix
  have hsub := hdecl.trans (Member.tokens_infix_of_find? hfind)
  rw [hitems] at hsub
  exact Node.exists_span_within hs hsub (hread.tokens_ne_nil hfind)

end EnumForge
