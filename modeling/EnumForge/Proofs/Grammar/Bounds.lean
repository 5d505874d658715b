import EnumForge.Proofs.Grammar.Locating
import EnumForge.Proofs.Grammar.Nesting
import EnumForge.Proofs.Token.Spreading
import EnumForge.Proofs.Tree.Part
import Mathlib.Data.List.Nodup

/-!
# Where the runs of a file end

The tokens that a file keeps raw come out even: groups are balanced, values and raw declarations
are nested.  A raw declaration is as long as it can be, and the token behind it is one that ends it.
This is said of all parts of a file at once, whether a case or a binding was read on the first
attempt or was read again as a raw declaration.
-/

namespace EnumForge

open Grammar (Balanced Nested Unbroken EndsRaw Opening)

/-! ### What follows a run -/

/-- The run stands among the tokens, and wherever it stands the next token has the property. -/
structure FollowedBy (P : Token → Prop) (run all : List Token) : Prop where
  occurs : run <:+: all
  next : ∀ before after, all = before ++ run ++ after → ∃ t ∈ after.head?, P t

/-- Distinct tokens stand in one place. -/
theorem FollowedBy.of_nodup {P : Token → Prop} {before run after all : List Token} {t : Token}
    (hall : all.Nodup) (hrun : run ≠ []) (hsplit : all = before ++ run ++ t :: after) (ht : P t) :
    FollowedBy P run all := by
  refine ⟨⟨before, t :: after, hsplit.symm⟩, fun before' after' hsplit' ↦ ?_⟩
  obtain ⟨u, us, rfl⟩ := List.exists_cons_of_ne_nil hrun
  have hboth : before ++ u :: (us ++ t :: after) = before' ++ u :: (us ++ after') := by
    simpa using hsplit.symm.trans hsplit'
  have hmiddle : (before ++ u :: (us ++ t :: after)).Nodup := by
    simpa [hsplit] using hall
  -- The first token of the run occurs once, so both splits meet there.
  have hfresh := (List.nodup_cons.1 (List.nodup_middle.1 hmiddle)).1
  rw [List.mem_append, not_or] at hfresh
  obtain ⟨-, -, hafter⟩ := (List.append_cons_inj_of_notMem hfresh.1 hfresh.2).1 hboth
  rw [← List.append_cancel_left hafter]
  exact ⟨t, rfl, ht⟩

theorem TokenStream.nodup_of_ofSource {source : String} {s : TokenStream}
    (h : ofSource source = .ok s) : s.toList.Nodup := by
  have hplaced := (Token.placed_append.1 (placed_of_ofSource h)).1
  have hdistinct := Token.pairwise_span_of_placed hplaced fun t ht ↦ text_ne_empty_of_ofSource h ht
  have htokens : s.tokens.Nodup := hdistinct.imp fun hne heq ↦ hne (congrArg Token.span heq)
  have hend : s.endOfFile ∉ s.tokens := fun hmem ↦
    (standsAlone_of_ofSource h _ hmem).kind_ne (spelled_endOfFile h).1
  simpa [toList] using htokens.concat hend

/-! ### Parts that come out even -/

/-- The accessors or the body of the declaration come out even, where `all` are the tokens of the
file. -/
def Decl.RunsEven (all : List Token) : Decl → Prop
  | .binding d => ∀ run ∈ d.accessors, Balanced run
  | .raw d => Nested d.body ∧ Unbroken d.body ∧ FollowedBy EndsRaw d.body all
  | .enum _ | .nominal _ | .extension _ | .enumCase _ => True

/-- The runs that the part has of its own come out even. -/
def Part.Even (all : List Token) : Part → Prop
  | attr a => ∀ run ∈ a.arguments, Balanced run
  | modifier m => ∀ run ∈ m.detail, Balanced run
  | caseElement e => ∀ run ∈ e.associatedValue, Balanced run
  | initializer i => Nested (Node.tokens i.value)
  | decl d => d.RunsEven all
  | file _ | members _ | member _ | block _ | attributes _ | modifiers _ | caseElements _
  | inheritance _ | inheritedTypes _ | inheritedType _ | typeClause _ | type _ | expr _
  | entries _ | entry _ | run _ | token _ => True

/-- The associated values and the values of the declaration come out even. -/
def Decl.ValuesEven (all : List Token) : Decl → Prop
  | .enumCase d => ∀ e ∈ d.elements,
      (Part.caseElement e).Even all ∧ ∀ i ∈ e.rawValue, (Part.initializer i).Even all
  | .binding d => ∀ i ∈ d.initializer, (Part.initializer i).Even all
  | .enum _ | .nominal _ | .extension _ | .raw _ => True

/-- The declaration comes out even, and so does all of it that is no member. -/
structure Decl.Even (all : List Token) (d : Decl) : Prop where
  runs : d.RunsEven all
  values : d.ValuesEven all
  attributes : ∀ a ∈ d.preamble.attributes, (Part.attr a).Even all
  modifiers : ∀ m ∈ d.preamble.modifiers, (Part.modifier m).Even all

/-- Every declaration among the members, at any depth, comes out even. -/
def Member.ListEven (all : List Token) (ms : List Member) : Prop :=
  ∀ path m, Member.find? path ms = some m → m.decl.Even all

namespace Part

/-- The part comes out even with all that it is made of. -/
def EvenInside (all : List Token) : Part → Prop
  | file f => Member.ListEven all f.items
  | members ms => Member.ListEven all ms
  | member m => m.decl.Even all ∧ Member.ListEven all m.decl.members
  | decl d => d.Even all ∧ Member.ListEven all d.members
  | block b => Member.ListEven all b.members
  | attributes as => ∀ a ∈ as, (attr a).Even all
  | modifiers ms => ∀ m ∈ ms, (modifier m).Even all
  | caseElements es =>
    ∀ e ∈ es, (caseElement e).Even all ∧ ∀ i ∈ e.rawValue, (initializer i).Even all
  | caseElement e => (caseElement e).Even all ∧ ∀ i ∈ e.rawValue, (initializer i).Even all
  | attr a => (attr a).Even all
  | modifier m => (modifier m).Even all
  | initializer i => (initializer i).Even all
  | inheritance _ | inheritedTypes _ | inheritedType _ | typeClause _ | type _ | expr _
  | entries _ | entry _ | run _ | token _ => True

variable {all : List Token}

theorem EvenInside.even {p : Part} (h : p.EvenInside all) : p.Even all := by
  cases p with
  | decl d => exact h.1.runs
  | caseElement e => exact h.1
  | attr | modifier | initializer => exact h
  | _ => trivial

theorem forall_evenInside_ofPreamble {d : Decl} (h : d.Even all) :
    ∀ q ∈ ofPreamble d.preamble, q.EvenInside all :=
  List.forall_mem_cons.2 ⟨h.attributes, List.forall_mem_singleton.2 h.modifiers⟩

theorem forall_evenInside_ofNominalHead {h : NominalHead}
    (hpreamble : ∀ q ∈ ofPreamble h.preamble, q.EvenInside all) :
    ∀ q ∈ ofNominalHead h, q.EvenInside all := by
  refine List.forall_mem_append.2 ⟨hpreamble, ?_⟩
  simp [EvenInside, or_imp, forall_and]

theorem forall_evenInside_ofExtensionHead {h : ExtensionHead}
    (hpreamble : ∀ q ∈ ofPreamble h.preamble, q.EvenInside all) :
    ∀ q ∈ ofExtensionHead h, q.EvenInside all := by
  refine List.forall_mem_append.2 ⟨hpreamble, ?_⟩
  simp [EvenInside, or_imp, forall_and]

theorem forall_evenInside_ofDecl {d : Decl} (h : (decl d).EvenInside all) :
    ∀ q ∈ ofDecl d, q.EvenInside all := by
  obtain ⟨hd, hmembers⟩ := h
  have hpreamble := forall_evenInside_ofPreamble hd
  have hvalues := hd.values
  cases d with
  | enum d | nominal d =>
    exact List.forall_mem_append.2 ⟨forall_evenInside_ofNominalHead hpreamble,
      List.forall_mem_singleton.2 hmembers⟩
  | extension d =>
    exact List.forall_mem_append.2 ⟨forall_evenInside_ofExtensionHead hpreamble,
      List.forall_mem_singleton.2 hmembers⟩
  | enumCase d =>
    exact List.forall_mem_append.2 ⟨hpreamble,
      List.forall_mem_cons.2 ⟨trivial, List.forall_mem_singleton.2 hvalues⟩⟩
  | binding d =>
    refine List.forall_mem_append.2 ⟨hpreamble, ?_⟩
    simpa [EvenInside, or_imp, forall_and, Decl.ValuesEven] using hvalues
  | raw d => exact List.forall_mem_append.2 ⟨hpreamble, List.forall_mem_singleton.2 trivial⟩

theorem EvenInside.forall_children {p : Part} (h : p.EvenInside all) :
    ∀ q ∈ p.children, q.EvenInside all := by
  cases p with
  | decl d => exact forall_evenInside_ofDecl h
  | members ms => exact List.forall_mem_map.2 fun m hm ↦ Member.forall_find?_of_mem h hm
  | attributes | modifiers | caseElements => exact List.forall_mem_map.2 h
  | file => exact List.forall_mem_cons.2 ⟨h, List.forall_mem_singleton.2 trivial⟩
  | member => exact List.forall_mem_cons.2 ⟨h, List.forall_mem_map.2 fun _ _ ↦ trivial⟩
  | block =>
    exact List.forall_mem_cons.2 ⟨trivial, List.forall_mem_cons.2
      ⟨h, List.forall_mem_singleton.2 trivial⟩⟩
  | caseElement e =>
    simpa [children, EvenInside, or_imp, forall_and] using h.2
  -- The parts that are left have nothing inside that has to come out even.
  | inheritedTypes | entries | run => exact List.forall_mem_map.2 fun _ _ ↦ trivial
  | inheritance | typeClause | initializer =>
    exact List.forall_mem_cons.2 ⟨trivial, List.forall_mem_singleton.2 trivial⟩
  | modifier | inheritedType =>
    exact List.forall_mem_cons.2 ⟨trivial, List.forall_mem_map.2 fun _ _ ↦ trivial⟩
  | attr =>
    exact List.forall_mem_cons.2 ⟨trivial, List.forall_mem_cons.2
      ⟨trivial, List.forall_mem_map.2 fun _ _ ↦ trivial⟩⟩
  | type t => cases t <;> simp [children, ofType, EvenInside]
  | expr e => cases e <;> simp [children, ofExpr, EvenInside]
  | entry => simp [children, EvenInside]
  | token => simp [children]

end Part

/-! ### What is read comes out even -/

namespace Grammar

variable {all before ts rest : List Token} {e : Token} {p : Preamble}

/-- Behind a raw declaration stands the token that ended it, or the end of the file. -/
theorem followedBy_of_rawDecl (hall : all.Nodup) (he : e.kind = .endOfFile) {d : RawDecl}
    (hsplit : all = before ++ ts ++ [e]) (h : rawDecl p ts = .ok (d, rest)) :
    FollowedBy EndsRaw d.body all := by
  obtain ⟨run, htokens, hne, happend⟩ := tokens_of_rawDecl h
  have hbody : run = d.body := by
    rw [← preamble_of_rawDecl h] at htokens
    exact (List.append_cancel_left htokens).symm
  obtain ⟨-, -, hrest⟩ := even_of_rawDecl h
  rw [← happend, hbody] at hsplit
  cases rest with
  | nil =>
    refine .of_nodup hall (hbody ▸ hne) (by simpa using hsplit) ?_
    exact .inr (.inr (.inl he))
  | cons t rest =>
    refine .of_nodup (t := t) hall (hbody ▸ hne) (by simpa using hsplit) ?_
    obtain hsemicolon | hbrace | hline := endsRaw_iff.1 (hrest t rfl)
    · exact .inl hsemicolon
    · exact .inr (.inl hbrace)
    · exact .inr (.inr (.inr hline))

/-- Whichever way an item opens, the declaration comes out even. -/
theorem even_of_opening (hall : all.Nodup) (he : e.kind = .endOfFile)
    (hsplit : all = before ++ ts ++ [e]) {o : Opening} (hopen : opening ts = .ok (o, rest))
    {d : Decl} (hstarts : o.Starts d) : d.Even all := by
  obtain ⟨p, ts₁, hp, hread⟩ := opening_eq_ok.1 hopen
  obtain ⟨ts₂, has, hms⟩ := preamble_eq_ok.1 hp
  have hattributes : ∀ a ∈ p.attributes, (Part.attr a).Even all := balanced_of_attributes has
  have hmodifiers : ∀ m ∈ p.modifiers, (Part.modifier m).Even all := balanced_of_modifiers hms
  have hsplit₁ : all = (before ++ Node.tokens p) ++ ts₁ ++ [e] := by
    rw [hsplit, ← reads_preamble _ _ _ hp]
    simp
  cases hread with
  | enum _ h | nominal _ h =>
    obtain ⟨block, rfl⟩ := hstarts
    obtain ⟨rfl, -⟩ := preamble_of_nominalHead h
    exact ⟨trivial, trivial, hattributes, hmodifiers⟩
  | extension _ h =>
    obtain ⟨block, rfl⟩ := hstarts
    obtain ⟨rfl, -⟩ := preamble_of_extensionHead h
    exact ⟨trivial, trivial, hattributes, hmodifiers⟩
  | enumCase _ h =>
    cases hstarts
    obtain rfl := preamble_of_caseDecl h
    exact ⟨trivial, even_of_caseDecl h, hattributes, hmodifiers⟩
  | binding _ h =>
    cases hstarts
    obtain rfl := preamble_of_bindingDecl h
    obtain ⟨hinitializer, haccessors⟩ := even_of_bindingDecl h
    exact ⟨haccessors, hinitializer, hattributes, hmodifiers⟩
  | raw _ h =>
    cases hstarts
    obtain rfl := preamble_of_rawDecl h
    obtain ⟨hnested, hunbroken, -⟩ := even_of_rawDecl h
    exact ⟨⟨hnested, hunbroken, followedBy_of_rawDecl hall he hsplit₁ h⟩, trivial, hattributes,
      hmodifiers⟩

end Grammar

/-- All that a file keeps raw comes out even: the arguments of attributes, the details of modifiers,
associated values and accessors are balanced, the values of cases and bindings are nested, and a
raw declaration is nested, unbroken and followed by a token that ends it. -/
theorem even_of_parseSource {source : String} {file : SourceFile}
    (hparse : parseSource source = .ok file) {p : Part} (hp : (Part.file file).Contains p) :
    p.Even (Node.tokens file) := by
  obtain ⟨s, hs, hread, -⟩ := parseSource_eq_ok.1 hparse
  obtain ⟨s', hs', htokens⟩ := tokens_of_parseSource hparse
  obtain rfl : s = s' := Except.ok.inj (hs.symm.trans hs')
  have hall := TokenStream.nodup_of_ofSource hs
  have hkind := (TokenStream.spelled_endOfFile hs).1
  have hfile : (Part.file file).EvenInside s.toList := by
    intro path m hfind
    obtain ⟨us, o, rest, ⟨before, hbefore⟩, hopen, hstarts⟩ := hread.exists_opening hfind
    have hsplit : s.toList = before ++ us ++ [s.endOfFile] := by
      rw [hbefore, TokenStream.toList]
    exact Grammar.even_of_opening hall hkind hsplit hopen hstarts
  rw [htokens]
  exact (hp.of_closed (fun _ hq ↦ hq.forall_children) hfile).even

/-- Groups of all kinds, a case that is read again as a raw declaration, and a raw declaration that
goes on over two lines. -/
def runsSource : String :=
  "@A(x, [1]) private(set) enum E \x7b case a(Int) = f(\x7b 1 \x7d)\n" ++
    "  var b: Int = [2] \x7b get \x7b 3 \x7d \x7d; case c d \x7d\n" ++
    "func g() \x7b\n\x7d\n.h"

theorem even_runsSource : ∃ file, parseSource runsSource = .ok file ∧
    file.items.map (·.decl.kindName) = ["enum", "declaration"] ∧
    (file.items.flatMap (·.decl.members)).map (·.decl.kindName) = ["case", "var", "declaration"] ∧
    ∀ p, (Part.file file).Contains p → p.Even (Node.tokens file) := by
  have hkinds : (parseSource runsSource).toOption.any (fun file ↦ decide
      (file.items.map (·.decl.kindName) = ["enum", "declaration"] ∧
      (file.items.flatMap (·.decl.members)).map (·.decl.kindName) =
        ["case", "var", "declaration"])) = true := by
    decide +kernel
  cases hparse : parseSource runsSource with
  | error e =>
    rw [hparse] at hkinds
    cases hkinds
  | ok file =>
    rw [hparse] at hkinds
    obtain ⟨hitems, hmembers⟩ := of_decide_eq_true hkinds
    exact ⟨file, rfl, hitems, hmembers, fun p hp ↦ even_of_parseSource hparse hp⟩

end EnumForge
