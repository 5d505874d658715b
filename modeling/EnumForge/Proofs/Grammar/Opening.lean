import EnumForge.Proofs.Expansion.Removal
import EnumForge.Proofs.Grammar.Conservation
import EnumForge.Proofs.Token.Splice

/-!
# How an item opens

What the reader does after attributes and modifiers is one of six things, told apart by the next
token; a case or a binding that does not come out even is raw.  A group that was read starts with
the at-signs of its attributes, then a modifier or its keyword, all of them words in lower case, and
it ends with a closing brace or a semicolon.
-/

namespace EnumForge

/-- How a group starts, whatever is taken off it. -/
structure Decl.Headed (d : Decl) : Prop where
  atSigns : ∀ a ∈ d.attributes, a.atSign.kind = .atSign
  startsSoft : ∃ t ts, d.afterAttributes = t :: ts ∧ t.StartsSoft

namespace Grammar

/-! ### The six openings -/

/-- Why the tokens `t :: ts` are read as a raw declaration. -/
inductive ReadsRaw (p : Preamble) (t : Token) (ts : List Token) : Prop where
  | other (hstart : startOf t ts.head? = .other)
  | enumCase {e : ParseError Nat} (hstart : startOf t ts.head? = .enumCase)
      (h : caseDecl p t ts = .error e)
  | binding {e : ParseError Nat} (hstart : startOf t ts.head? = .binding)
      (h : bindingDecl p t ts = .error e)

/-- `OpeningRead p ts o rest`: after the preamble `p`, the tokens `ts` open as `o`. -/
inductive OpeningRead (p : Preamble) : List Token → Opening → List Token → Prop where
  | enum {t : Token} {ts rest : List Token} {head : NominalHead}
      (hstart : startOf t ts.head? = .enum)
      (h : nominalHead "an enum name" p t ts = .ok (head, rest)) :
      OpeningRead p (t :: ts) (.group (.enum head)) rest
  | nominal {t : Token} {ts rest : List Token} {head : NominalHead}
      (hstart : startOf t ts.head? = .nominal)
      (h : nominalHead "a type name" p t ts = .ok (head, rest)) :
      OpeningRead p (t :: ts) (.group (.nominal head)) rest
  | extension {t : Token} {ts rest : List Token} {head : ExtensionHead}
      (hstart : startOf t ts.head? = .extension) (h : extensionHead p t ts = .ok (head, rest)) :
      OpeningRead p (t :: ts) (.group (.extension head)) rest
  | enumCase {t : Token} {ts rest : List Token} {d : CaseDecl}
      (hstart : startOf t ts.head? = .enumCase) (h : caseDecl p t ts = .ok (d, rest)) :
      OpeningRead p (t :: ts) (.leaf (.enumCase d)) rest
  | binding {t : Token} {ts rest : List Token} {d : BindingDecl}
      (hstart : startOf t ts.head? = .binding) (h : bindingDecl p t ts = .ok (d, rest)) :
      OpeningRead p (t :: ts) (.leaf (.binding d)) rest
  | raw {t : Token} {ts rest : List Token} {d : RawDecl} (hraw : ReadsRaw p t ts)
      (h : rawDecl p (t :: ts) = .ok (d, rest)) : OpeningRead p (t :: ts) (.leaf (.raw d)) rest

theorem rawOpening_eq_ok {p : Preamble} {ts rest : List Token} {o : Opening} :
    rawOpening p ts = .ok (o, rest) ↔ ∃ d, rawDecl p ts = .ok (d, rest) ∧ o = .leaf (.raw d) := by
  rw [rawOpening, bind_eq_ok]
  constructor
  · rintro ⟨⟨d, rest'⟩, hd, h⟩
    obtain ⟨rfl, rfl⟩ := ok_pair_inj.1 h
    exact ⟨d, hd, rfl⟩
  · rintro ⟨d, hd, rfl⟩
    exact ⟨_, hd, rfl⟩

theorem openingRead_of_openingAfter {p : Preamble} {ts rest : List Token} {o : Opening}
    (h : openingAfter p ts = .ok (o, rest)) : OpeningRead p ts o rest := by
  cases ts with
  | nil =>
    obtain ⟨d, hd, -⟩ := rawOpening_eq_ok.1 h
    simp [rawDecl] at hd
  | cons t ts =>
    rw [openingAfter] at h
    split at h
    next hstart =>
      obtain ⟨⟨head, rest'⟩, hh, h⟩ := bind_eq_ok.1 h
      obtain ⟨rfl, rfl⟩ := ok_pair_inj.1 h
      exact .enum hstart hh
    next hstart =>
      obtain ⟨⟨head, rest'⟩, hh, h⟩ := bind_eq_ok.1 h
      obtain ⟨rfl, rfl⟩ := ok_pair_inj.1 h
      exact .nominal hstart hh
    next hstart =>
      obtain ⟨⟨head, rest'⟩, hh, h⟩ := bind_eq_ok.1 h
      obtain ⟨rfl, rfl⟩ := ok_pair_inj.1 h
      exact .extension hstart hh
    next hstart =>
      split at h
      next hd =>
        obtain ⟨rfl, rfl⟩ := ok_pair_inj.1 h
        exact .enumCase hstart hd
      next hd =>
        obtain ⟨d, hraw, rfl⟩ := rawOpening_eq_ok.1 h
        exact .raw (.enumCase hstart hd) hraw
    next hstart =>
      split at h
      next hd =>
        obtain ⟨rfl, rfl⟩ := ok_pair_inj.1 h
        exact .binding hstart hd
      next hd =>
        obtain ⟨d, hraw, rfl⟩ := rawOpening_eq_ok.1 h
        exact .raw (.binding hstart hd) hraw
    next hstart =>
      obtain ⟨d, hraw, rfl⟩ := rawOpening_eq_ok.1 h
      exact .raw (.other hstart) hraw

theorem openingAfter_of_openingRead {p : Preamble} {ts rest : List Token} {o : Opening}
    (h : OpeningRead p ts o rest) : openingAfter p ts = .ok (o, rest) := by
  cases h with
  | enum hstart h | nominal hstart h | extension hstart h =>
    rw [openingAfter, hstart]
    exact bind_eq_ok.2 ⟨_, h, rfl⟩
  | enumCase hstart h | binding hstart h =>
    rw [openingAfter, hstart]
    dsimp only
    rw [h]
  | @raw t ts rest d hraw h =>
    have hopen : rawOpening p (t :: ts) = .ok (.leaf (.raw d), rest) :=
      rawOpening_eq_ok.2 ⟨d, h, rfl⟩
    rw [openingAfter]
    cases hraw with
    | other hstart => rw [hstart]; exact hopen
    | enumCase hstart he | binding hstart he =>
      rw [hstart]
      dsimp only
      rw [he]
      exact hopen

theorem preamble_eq_ok {ts rest : List Token} {p : Preamble} :
    preamble ts = .ok (p, rest) ↔ ∃ ts₁, attributes ts = .ok (p.attributes, ts₁) ∧
      modifiers ts₁ = .ok (p.modifiers, rest) := by
  rw [preamble, bind_eq_ok]
  constructor
  · rintro ⟨⟨as, ts₁⟩, has, h⟩
    obtain ⟨⟨ms, ts₂⟩, hms, h⟩ := bind_eq_ok.1 h
    obtain ⟨rfl, rfl⟩ := ok_pair_inj.1 h
    exact ⟨ts₁, has, hms⟩
  · rintro ⟨ts₁, has, hms⟩
    exact ⟨_, has, bind_eq_ok.2 ⟨_, hms, rfl⟩⟩

theorem opening_eq_ok {ts rest : List Token} {o : Opening} :
    opening ts = .ok (o, rest) ↔
      ∃ p ts₁, preamble ts = .ok (p, ts₁) ∧ OpeningRead p ts₁ o rest := by
  rw [opening, bind_eq_ok]
  constructor
  · rintro ⟨⟨p, ts₁⟩, hp, h⟩
    exact ⟨p, ts₁, hp, openingRead_of_openingAfter h⟩
  · rintro ⟨p, ts₁, hp, h⟩
    exact ⟨_, hp, openingAfter_of_openingRead h⟩

/-! ### The first tokens of a group -/

theorem kind_of_attributes {ts rest : List Token} {as : List Attribute}
    (h : attributes ts = .ok (as, rest)) : ∀ a ∈ as, a.atSign.kind = .atSign := by
  fun_induction attributes ts generalizing as rest with
  | case1 | case5 =>
    obtain ⟨rfl, -⟩ := ok_pair_inj.1 h
    simp
  | case2 | case3 => simp at h
  | case4 t ts ht a rest₁ first as₁ rest₂ _ ih =>
    obtain ⟨rfl, -⟩ := ok_pair_inj.1 h
    have hsign : a.atSign = t := by
      unfold attributeAfter at first
      split at first
      · simp at first
      · split at first
        · obtain ⟨⟨arguments, ts'⟩, -, first⟩ := bind_eq_ok.1 first
          obtain ⟨rfl, -⟩ := ok_pair_inj.1 first
          rfl
        · simp at first
    intro b hb
    rcases List.mem_cons.1 hb with rfl | hb
    · rw [hsign, ht]
    · exact ih ‹_› b hb

/-- The words that a group can start with. -/
def groupWords : List String :=
  "class" :: "enum" :: "struct" :: "protocol" :: "extension" :: "actor" :: modifierWords

theorem startsSoft_of_mem_groupWords {t : Token} (h : t.text ∈ groupWords) : t.StartsSoft := by
  have hall : ∀ w ∈ groupWords, w.toList.head?.any Char.isLower = true := by decide
  have hlower := hall _ h
  cases htext : t.text.toList with
  | nil => simp [htext] at hlower
  | cons c tail => exact ⟨c, tail, htext, .inr (by simpa [htext] using hlower)⟩

theorem mem_groupWords_of_isModifier {t : Token} {next : Option Token}
    (h : isModifier t next = true) : t.text ∈ groupWords := by
  simp only [isModifier, Bool.and_eq_true, Bool.or_eq_true, List.contains_eq_mem,
    decide_eq_true_eq, Token.isKeyword, beq_iff_eq] at h
  obtain ⟨-, ⟨hword, -⟩ | ⟨⟨-, hclass⟩, -⟩⟩ := h
  · simp [groupWords, hword]
  · simp [groupWords, hclass]

theorem mem_groupWords_of_modifiers {ts rest : List Token} {ms : List Modifier}
    (h : modifiers ts = .ok (ms, rest)) : ∀ m ∈ ms, m.name.text ∈ groupWords := by
  fun_induction modifiers ts generalizing ms rest with
  | case1 | case5 =>
    obtain ⟨rfl, -⟩ := ok_pair_inj.1 h
    simp
  | case2 | case3 => simp at h
  | case4 t ts hmodifier detail rest₁ _ ms₁ rest₂ _ ih =>
    obtain ⟨rfl, -⟩ := ok_pair_inj.1 h
    intro m hm
    rcases List.mem_cons.1 hm with rfl | hm
    · exact mem_groupWords_of_isModifier hmodifier
    · exact ih ‹_› m hm

theorem mem_groupWords_of_startOf {t : Token} {next : Option Token}
    (h : startOf t next = .enum ∨ startOf t next = .nominal ∨ startOf t next = .extension) :
    t.text ∈ groupWords := by
  unfold startOf at h
  split at h
  next hactor => simp [groupWords, hactor.1]
  split at h
  · simp at h
  split at h
  next henum => simp [groupWords, henum]
  split at h
  next hnominal =>
    rcases hnominal with hword | hword | hword <;> simp [groupWords, hword]
  split at h
  next hext => simp [groupWords, hext]
  split at h
  · simp at h
  split at h
  · simp at h
  · simp at h

theorem preamble_of_nominalHead {expected : String} {p : Preamble} {keyword : Token}
    {ts rest : List Token} {head : NominalHead}
    (h : nominalHead expected p keyword ts = .ok (head, rest)) :
    head.preamble = p ∧ head.keyword = keyword := by
  obtain ⟨⟨name, ts₁⟩, -, h⟩ := bind_eq_ok.1 h
  obtain ⟨⟨gen, ts₂⟩, -, h⟩ := bind_eq_ok.1 h
  obtain ⟨⟨inh, ts₃⟩, -, h⟩ := bind_eq_ok.1 h
  obtain ⟨rfl, -⟩ := ok_pair_inj.1 h
  exact ⟨rfl, rfl⟩

theorem preamble_of_extensionHead {p : Preamble} {keyword : Token} {ts rest : List Token}
    {head : ExtensionHead} (h : extensionHead p keyword ts = .ok (head, rest)) :
    head.preamble = p ∧ head.keyword = keyword := by
  obtain ⟨⟨ty, ts₁⟩, -, h⟩ := bind_eq_ok.1 h
  obtain ⟨⟨inh, ts₂⟩, -, h⟩ := bind_eq_ok.1 h
  obtain ⟨rfl, -⟩ := ok_pair_inj.1 h
  exact ⟨rfl, rfl⟩

theorem preamble_of_caseDecl {p : Preamble} {keyword : Token} {ts rest : List Token} {d : CaseDecl}
    (h : caseDecl p keyword ts = .ok (d, rest)) : d.preamble = p := by
  obtain ⟨⟨es, ts₁⟩, -, h⟩ := bind_eq_ok.1 h
  dsimp only at h
  split at h
  · obtain ⟨rfl, -⟩ := ok_pair_inj.1 h
    rfl
  · simp [throw, throwThe, MonadExceptOf.throw] at h

theorem preamble_of_bindingDecl {p : Preamble} {keyword : Token} {ts rest : List Token}
    {d : BindingDecl} (h : bindingDecl p keyword ts = .ok (d, rest)) : d.preamble = p := by
  obtain ⟨⟨name, ts₁⟩, -, h⟩ := bind_eq_ok.1 h
  obtain ⟨⟨ann, ts₂⟩, -, h⟩ := bind_eq_ok.1 h
  obtain ⟨⟨init, ts₃⟩, -, h⟩ := bind_eq_ok.1 h
  obtain ⟨⟨acc, ts₄⟩, -, h⟩ := bind_eq_ok.1 h
  dsimp only at h
  split at h
  · obtain ⟨rfl, -⟩ := ok_pair_inj.1 h
    rfl
  · simp [throw, throwThe, MonadExceptOf.throw] at h

theorem preamble_of_rawDecl {p : Preamble} {ts rest : List Token} {d : RawDecl}
    (h : rawDecl p ts = .ok (d, rest)) : d.preamble = p := by
  unfold rawDecl at h
  split at h
  · simp at h
  split at h
  · simp at h
  split at h
  · simp at h
  split at h
  next =>
    obtain ⟨rfl, -⟩ := ok_pair_inj.1 h
    rfl
  next => simp at h
  next => simp at h

theorem headed_of_keyword {d : Decl} {p : Preamble} {ts ts₁ : List Token}
    (hp : preamble ts = .ok (p, ts₁)) (hattributes : d.attributes = p.attributes)
    {keyword : Token}
    (hafter : ∃ run, d.afterAttributes = Node.tokens p.modifiers ++ keyword :: run)
    (hkeyword : keyword.text ∈ groupWords) : d.Headed := by
  obtain ⟨ts₂, has, hms⟩ := preamble_eq_ok.1 hp
  obtain ⟨run, hafter⟩ := hafter
  refine ⟨hattributes ▸ kind_of_attributes has, ?_⟩
  cases hmodifiers : p.modifiers with
  | nil =>
    rw [hmodifiers] at hafter
    exact ⟨keyword, run, hafter, startsSoft_of_mem_groupWords hkeyword⟩
  | cons m ms =>
    rw [hmodifiers] at hafter hms
    have hword := mem_groupWords_of_modifiers hms m List.mem_cons_self
    have hcons : Node.tokens (m :: ms) = (m.name :: Node.tokens m.detail) ++ Node.tokens ms := rfl
    rw [hcons] at hafter
    exact ⟨m.name, _, hafter, startsSoft_of_mem_groupWords hword⟩

theorem headed_of_opening {ts rest : List Token} {head : GroupHead}
    (h : opening ts = .ok (.group head, rest)) (block : MemberBlock) :
    (head.withBlock block).Headed := by
  obtain ⟨p, ts₁, hp, h⟩ := opening_eq_ok.1 h
  cases h with
  | enum hstart h =>
    obtain ⟨rfl, rfl⟩ := preamble_of_nominalHead h
    refine headed_of_keyword hp rfl ?_ (mem_groupWords_of_startOf (.inl hstart))
    exact ⟨_, List.append_assoc _ _ _⟩
  | nominal hstart h =>
    obtain ⟨rfl, rfl⟩ := preamble_of_nominalHead h
    refine headed_of_keyword hp rfl ?_ (mem_groupWords_of_startOf (.inr (.inl hstart)))
    exact ⟨_, List.append_assoc _ _ _⟩
  | extension hstart h =>
    obtain ⟨rfl, rfl⟩ := preamble_of_extensionHead h
    refine headed_of_keyword hp rfl ?_ (mem_groupWords_of_startOf (.inr (.inr hstart)))
    exact ⟨_, List.append_assoc _ _ _⟩

theorem isGroup_of_leaf {ts rest : List Token} {d : Decl}
    (h : opening ts = .ok (.leaf d, rest)) : d.isGroup = false := by
  obtain ⟨p, ts₁, -, h⟩ := opening_eq_ok.1 h
  cases h <;> rfl

/-! ### The last token of a group -/

theorem kind_of_expect {kind : TokenKind} {expected : String} {ts rest : List Token} {t : Token}
    (h : expect kind expected ts = .ok (t, rest)) : t.kind = kind := by
  unfold expect at h
  split at h
  · simp at h
  · split at h
    next hkind =>
      obtain ⟨rfl, -⟩ := ok_pair_inj.1 h
      exact hkind
    next => simp at h

theorem kind_of_takeKind {kind : TokenKind} {ts : List Token} {t : Token}
    (h : (takeKind kind ts).1 = some t) : t.kind = kind := by
  unfold takeKind at h
  split at h
  · simp at h
  · split at h
    next hkind =>
      simp only [Option.some.injEq] at h
      rw [← h, hkind]
    next => simp at h

/-- A group with its semicolon ends with a brace or with that semicolon. -/
theorem exists_last_of_group (head : GroupHead) {left right : Token} {members : List Member}
    (hright : right.kind = .rightBrace) (outer : List Token) :
    ∃ ts z, Node.tokens (withSemicolon (head.withBlock ⟨left, members, right⟩) outer).1 =
      ts ++ [z] ∧ (z.kind = .rightBrace ∨ z.kind = .semicolon) := by
  have htokens : Node.tokens (withSemicolon (head.withBlock ⟨left, members, right⟩) outer).1 =
      head.tokens ++ (left :: (Member.listTokens members ++ [right])) ++
        Node.tokens (takeKind .semicolon outer).1 := by
    rw [← MemberBlock.tokens, ← GroupHead.tokens_withBlock]
    rfl
  rw [htokens]
  cases hsemi : (takeKind .semicolon outer).1 with
  | none =>
    refine ⟨head.tokens ++ left :: Member.listTokens members, right, ?_, .inl hright⟩
    simp [Node.tokens]
  | some z => exact ⟨_, z, rfl, .inr (kind_of_takeKind hsemi)⟩

/-- The groups among the items of a file. -/
theorem ItemsRead.of_isGroup {ts last : List Token} {ms : List Member} (h : ItemsRead ts ms last)
    {m : Member} (hm : m ∈ ms) (hgroup : m.decl.isGroup = true) :
    m.decl.Headed ∧ ∃ ts z, Node.tokens m = ts ++ [z] ∧
      (z.kind = .rightBrace ∨ z.kind = .semicolon) := by
  induction h with
  | done => simp at hm
  | leaf _ hopen _ ih =>
    rcases List.mem_cons.1 hm with rfl | hm
    · have hleaf := isGroup_of_leaf hopen
      simp [withSemicolon, hleaf] at hgroup
    · exact ih hm
  | @group _ _ _ _ outer _ head _ _ _ _ _ hopen _ _ hright _ _ ih =>
    rcases List.mem_cons.1 hm with rfl | hm
    · exact ⟨headed_of_opening hopen _, exists_last_of_group head (kind_of_expect hright) outer⟩
    · exact ih hm

end Grammar

end EnumForge
