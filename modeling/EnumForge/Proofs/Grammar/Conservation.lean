import EnumForge.Grammar
import EnumForge.Proofs.Token.Stream
import EnumForge.Proofs.Tree.Walk

/-!
# Reading loses no token

Whatever the reader of items does (a group with its members, a declaration without members, a case
or binding that is read again as raw tokens), the tokens of the items and the tokens that are left
are the tokens it was given.  Together with the lexer, which loses no character, a source file
walks through exactly the tokens of its source and prints back as that source.
-/

namespace EnumForge

namespace Grammar

theorem GroupHead.tokens_withBlock (head : GroupHead) (block : MemberBlock) :
    (head.withBlock block).tokens = head.tokens ++ block.tokens := by
  cases head <;> rfl

/-- Whether a list of items ends before `ts`. -/
def atBlockEnd (ts : List Token) : Bool := ts.head?.all (·.kind == .rightBrace)

/-- `ItemsRead ts ms last`: the items at the head of `ts` are `ms`, and `last` follows them. -/
inductive ItemsRead : List Token → List Member → List Token → Prop where
  | done {ts : List Token} (hend : atBlockEnd ts = true) : ItemsRead ts [] ts
  | leaf {ts after last : List Token} {d : Decl} {ms : List Member}
      (hend : atBlockEnd ts = false) (hopen : opening ts = .ok (.leaf d, after))
      (hrest : ItemsRead (withSemicolon d after).2 ms last) :
      ItemsRead ts ((withSemicolon d after).1 :: ms) last
  | group {ts after inner closing outer last : List Token} {head : GroupHead}
      {left right : Token} {members ms : List Member}
      (hend : atBlockEnd ts = false) (hopen : opening ts = .ok (.group head, after))
      (hleft : expect .leftBrace "`\x7b`" after = .ok (left, inner))
      (hblock : ItemsRead inner members closing)
      (hright : expect .rightBrace "`\x7d`" closing = .ok (right, outer))
      (hrest : ItemsRead (withSemicolon (head.withBlock ⟨left, members, right⟩) outer).2 ms last) :
      ItemsRead ts ((withSemicolon (head.withBlock ⟨left, members, right⟩) outer).1 :: ms) last

theorem itemsRead_of_items {ts : List Token} {list : ItemList ts} (h : items ts = .ok list) :
    ItemsRead ts list.members list.rest := by
  fun_induction items ts with
  | case1 ts hend =>
    simp only [Except.ok.injEq] at h
    subst h
    exact .done hend
  | case2 | case3 | case5 | case6 | case7 | case8 => simp at h
  | case4 ts hend d rest hopen ms last hle hrest ih =>
    simp only [Except.ok.injEq] at h
    subst h
    exact .leaf (by simpa [atBlockEnd] using hend) hopen (ih hrest)
  | case9 =>
    rename_i hend _ _ hopen _ _ hleft _ _ _ hblock _ _ hright d _ _ _ hrest ihblock ih
    simp only [Except.ok.injEq] at h
    subst h
    exact .group (by simpa [atBlockEnd] using hend) hopen hleft (ihblock hblock) hright (ih hrest)

theorem items_of_itemsRead {ts last : List Token} {ms : List Member} (h : ItemsRead ts ms last) :
    ∃ list, items ts = .ok list ∧ list.members = ms ∧ list.rest = last := by
  induction h with
  | @done ts hend =>
    refine ⟨⟨[], ts, Nat.le_refl _⟩, ?_, rfl, rfl⟩
    unfold atBlockEnd at hend
    rw [items, if_pos hend]
  | @leaf ts after last d ms hend hopen _ ih =>
    obtain ⟨⟨_, _, hle⟩, hitems, rfl, rfl⟩ := ih
    unfold atBlockEnd at hend
    have hlt := (append_of_opening hopen).2
    have hsemi := length_withSemicolon_le d after
    refine ⟨⟨_, _, by omega⟩, ?_, rfl, rfl⟩
    rw [items, if_neg (by simp [hend])]
    split
    next e he => simp [hopen] at he
    next d' after' hopen' =>
      obtain ⟨hd, rfl⟩ := ok_pair_inj.1 (hopen.symm.trans hopen')
      cases hd
      simp only [hitems]
    next head' after' hopen' => simp [hopen] at hopen'
  | @group ts after inner closing outer last head left right members ms hend hopen hleft _ hright _
      ihblock ih =>
    obtain ⟨⟨members, closing, hle₁⟩, hblock, rfl, rfl⟩ := ihblock
    obtain ⟨⟨ms, last, hle₂⟩, hitems, rfl, rfl⟩ := ih
    unfold atBlockEnd at hend
    have h₁ := (append_of_opening hopen).2
    have h₂ := length_lt_of_expect hleft
    have h₃ := length_lt_of_expect hright
    have h₄ := length_withSemicolon_le (head.withBlock ⟨left, members, right⟩) outer
    dsimp only at h₃ h₄ hle₂ hitems hright
    refine ⟨⟨_, _, by omega⟩, ?_, rfl, rfl⟩
    rw [items, if_neg (by simp [hend])]
    split
    next e he => simp [hopen] at he
    next d' after' hopen' => simp [hopen] at hopen'
    next head' after' hopen' =>
      obtain ⟨hd, rfl⟩ := ok_pair_inj.1 (hopen.symm.trans hopen')
      cases hd
      split
      next e he => simp [hleft] at he
      next left' inner' hleft' =>
        obtain ⟨rfl, rfl⟩ := ok_pair_inj.1 (hleft.symm.trans hleft')
        simp only [hblock]
        split
        next e he => simp [hright] at he
        next right' outer' hright' =>
          obtain ⟨rfl, rfl⟩ := ok_pair_inj.1 (hright.symm.trans hright')
          simp only [hitems]

theorem ItemsRead.tokens_append {ts last : List Token} {ms : List Member}
    (h : ItemsRead ts ms last) : Member.listTokens ms ++ last = ts := by
  induction h with
  | done => rfl
  | @leaf ts after last d ms _ hopen _ ih =>
    rw [Member.listTokens, List.append_assoc, ih, withSemicolon_append]
    exact (append_of_opening hopen).1
  | @group ts after inner closing outer last head left right members ms _ hopen hleft _ hright _
      ihblock ih =>
    have hinner : left :: inner = after := reads_expect _ _ _ _ _ hleft
    have houter : right :: outer = closing := reads_expect _ _ _ _ _ hright
    rw [Member.listTokens, List.append_assoc, ih, withSemicolon_append,
      GroupHead.tokens_withBlock, MemberBlock.tokens, ← (append_of_opening hopen).1,
      ← hinner, ← ihblock, ← houter]
    simp [Opening.tokens]

theorem ItemsRead.atBlockEnd {ts last : List Token} {ms : List Member}
    (h : ItemsRead ts ms last) : atBlockEnd last = true := by
  induction h with
  | done hend => exact hend
  | leaf _ _ _ ih => exact ih
  | group _ _ _ _ _ _ _ ih => exact ih

/-- The items of a file take up all its tokens. -/
theorem fileItems_eq_ok {ts : List Token} {ms : List Member} :
    fileItems ts = .ok ms ↔ ItemsRead ts ms [] := by
  constructor
  · intro h
    obtain ⟨list, hitems, h⟩ := bind_eq_ok.1 h
    have hread := itemsRead_of_items hitems
    split at h
    next hrest =>
      simp only [pure, Except.pure, Except.ok.injEq] at h
      rwa [hrest, h] at hread
    next => simp [throw, throwThe, MonadExceptOf.throw] at h
  · intro h
    obtain ⟨list, hitems, rfl, hrest⟩ := items_of_itemsRead h
    simp [fileItems, hitems, hrest, bind, Except.bind, pure, Except.pure]

theorem file_eq_ok {source : String} {f : SourceFile} :
    file source = .ok f ↔ ∃ s, TokenStream.ofSource source = .ok s ∧
      ItemsRead s.tokens f.items [] ∧ f.endOfFile = s.endOfFile := by
  constructor
  · intro h
    obtain ⟨s, hs, h⟩ := bind_eq_ok.1 h
    obtain ⟨ms, hms, h⟩ := bind_eq_ok.1 h
    simp only [pure, Except.pure, Except.ok.injEq] at h
    subst h
    exact ⟨s, hs, fileItems_eq_ok.1 hms, rfl⟩
  · rintro ⟨s, hs, hread, heof⟩
    obtain ⟨ms, eof⟩ := f
    dsimp only at hread heof
    subst heof
    simp [file, hs, fileItems_eq_ok.2 hread, bind, Except.bind, pure, Except.pure]

end Grammar

theorem parseSource_eq_ok {source : String} {f : SourceFile} :
    parseSource source = .ok f ↔ ∃ s, TokenStream.ofSource source = .ok s ∧
      Grammar.ItemsRead s.tokens f.items [] ∧ f.endOfFile = s.endOfFile := by
  rw [← Grammar.file_eq_ok, parseSource]
  exact mapError_eq_ok

theorem parseDecl_eq_ok {source : String} {d : Decl} :
    parseDecl source = .ok d ↔ ∃ f m, parseSource source = .ok f ∧ f.items = [m] ∧ m.decl = d := by
  constructor
  · intro h
    obtain ⟨f, hf, h⟩ := bind_eq_ok.1 h
    split at h
    next m hitems => exact ⟨f, m, hf, hitems, by simpa [pure, Except.pure] using h⟩
    next => simp [throw, throwThe, MonadExceptOf.throw] at h
  · rintro ⟨⟨items, endOfFile⟩, m, hf, rfl, rfl⟩
    exact bind_eq_ok.2 ⟨_, hf, rfl⟩

/-- The enum that `source` spells, if that is all of it. -/
def parseEnum? (source : String) : Option NominalDecl :=
  (parseDecl source).toOption.bind Decl.enum?

theorem parseEnum?_eq_some {source : String} {d : NominalDecl} :
    parseEnum? source = some d ↔ parseDecl source = .ok (.enum d) := by
  unfold parseEnum?
  cases parseDecl source with
  | error e => simp [Except.toOption]
  | ok d' => cases d' <;> simp [Except.toOption, Decl.enum?]

theorem tokens_of_parseSource {source : String} {f : SourceFile}
    (h : parseSource source = .ok f) :
    ∃ s, TokenStream.ofSource source = .ok s ∧ Node.tokens f = s.toList := by
  obtain ⟨s, hs, hread, heof⟩ := parseSource_eq_ok.1 h
  refine ⟨s, hs, ?_⟩
  have hitems : Node.tokens f.items = s.tokens := by
    rw [Member.tokens_list, ← hread.tokens_append, List.append_nil]
  have hfile : Node.tokens f = Node.tokens f.items ++ [f.endOfFile] := rfl
  rw [hfile, hitems, heof, TokenStream.toList]

theorem source_of_parseSource {source : String} {f : SourceFile}
    (h : parseSource source = .ok f) : Node.source f = source := by
  obtain ⟨s, hs, htokens⟩ := tokens_of_parseSource h
  rw [← String.toList_inj, Node.toList_source, htokens, TokenStream.listChars_of_ofSource hs]

/-- A file that could be read walks through exactly the tokens of its source, the end of the file
included, and prints back as its source. -/
theorem tokenize_eq_tokens_of_parseSource {source : String} {f : SourceFile}
    (h : parseSource source = .ok f) :
    tokenize source = .ok (Node.tokens f) ∧ Node.source f = source := by
  obtain ⟨s, hs, htokens⟩ := tokens_of_parseSource h
  exact ⟨tokenize_eq_ok.2 ⟨s, hs, htokens⟩, source_of_parseSource h⟩

/-- A source in which a case without an end and a binding of two names are read again as raw
tokens. -/
def backtrackingSource : String :=
  "@A(1) enum E<T>: B, C \x7b\n case a = [.x: 1, .y: [2]]\n case b c\n\x7d\nlet (u, v) = w // end"

theorem tokenize_backtrackingSource :
    ∃ f, parseSource backtrackingSource = .ok f ∧
      tokenize backtrackingSource = .ok (Node.tokens f) ∧
      Node.source f = backtrackingSource := by
  have hok : (parseSource backtrackingSource).isOk = true := by decide +kernel
  cases hparse : parseSource backtrackingSource with
  | error e => simp [hparse, Except.isOk, Except.toBool] at hok
  | ok f => exact ⟨f, rfl, tokenize_eq_tokens_of_parseSource hparse⟩

end EnumForge
