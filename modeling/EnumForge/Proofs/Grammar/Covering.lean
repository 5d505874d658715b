import EnumForge.Proofs.Grammar.Locating
import EnumForge.Proofs.Token.Tiling
import EnumForge.Proofs.Tree.Part

/-!
# What the parts of a file cover

Every part of a file that was read is made of consecutive tokens of the source, so its span covers
exactly its trimmed text.  Items, attributes and inherited types have tokens, and those of one list
cover the source one after the other.
-/

namespace EnumForge

open Text (Span)

theorem Text.Span.Covers.slice {s : Span} {source text : String} (h : s.Covers source text) :
    s.slice source = text := by
  obtain ⟨before, after, rfl, rfl⟩ := h
  exact slice_append before text after

/-! ### Nodes of one list -/

namespace Node

variable {α : Type} [Node α]

/-- Both nodes lie in a source, `a` up to where `b` starts or not as far. -/
def Before (a b : α) : Prop :=
  ∃ r s, span a = some r ∧ span b = some s ∧ r.stop ≤ s.start

theorem before_of_placed {n : Nat} {a b : α} {between : List Token}
    (h : Token.Placed n (tokens a ++ between ++ tokens b)) (ha : tokens a ≠ [])
    (hb : tokens b ≠ []) : Before a b := by
  rw [List.append_assoc] at h
  obtain ⟨hplaceda, h⟩ := Token.placed_append.1 h
  obtain ⟨hbetween, hplacedb⟩ := Token.placed_append.1 h
  refine ⟨_, _, span_of_placed hplaceda ha, span_of_placed hplacedb hb, ?_⟩
  have hsize := congrArg (fun s : String ↦ s.utf8ByteSize) (source_eq_trimmed a)
  simp only [String.utf8ByteSize_append] at hsize
  have htokens : Text.byteSize (Token.listChars (tokens a)) = (source a).utf8ByteSize := by
    rw [← toList_source, Text.byteSize_toList]
  dsimp only
  omega

theorem pairwise_before_of_placed {n : Nat} {as : List α} (h : Token.Placed n (tokens as))
    (hne : ∀ a ∈ as, tokens a ≠ []) : as.Pairwise Before := by
  induction as generalizing n with
  | nil => exact .nil
  | cons a as ih =>
    have hcons : tokens (a :: as) = tokens a ++ tokens as := rfl
    rw [hcons] at h
    refine .cons (fun b hb ↦ ?_) (ih (Token.placed_append.1 h).2 fun c hc ↦
      hne c (List.mem_cons_of_mem a hc))
    obtain ⟨before, after, rfl⟩ := List.append_of_mem hb
    have hsplit : tokens (before ++ b :: after) = tokens before ++ (tokens b ++ tokens after) := by
      simp [tokens]
    rw [hsplit, ← List.append_assoc, ← List.append_assoc] at h
    exact before_of_placed (Token.placed_append.1 h).1 (hne a List.mem_cons_self)
      (hne b (List.mem_cons_of_mem a hb))

/-- Nodes that follow each other in a source lie there one after the other. -/
theorem pairwise_before_of_infix {source : String} {s : TokenStream}
    (hs : TokenStream.ofSource source = .ok s) {as : List α}
    (hsub : tokens as <:+: s.toList) (hne : ∀ a ∈ as, tokens a ≠ []) : as.Pairwise Before := by
  obtain ⟨before, after, hsplit⟩ := hsub
  have hplaced := TokenStream.placed_of_ofSource hs
  rw [← hsplit, List.append_assoc] at hplaced
  exact pairwise_before_of_placed (Token.placed_append.1 (Token.placed_append.1 hplaced).2).1 hne

end Node

/-! ### Nodes that have tokens -/

/-- The declaration has tokens, and so has each type that it inherits. -/
structure Decl.Filled (d : Decl) : Prop where
  tokens_ne : Node.tokens d ≠ []
  types_ne : ∀ c ∈ d.inheritance?, ∀ i ∈ c.types, Node.tokens i ≠ []

/-- Every declaration among the members, at any depth, is filled. -/
def Member.ListFilled (ms : List Member) : Prop :=
  ∀ path m, Member.find? path ms = some m → m.decl.Filled

theorem Member.ListFilled.of_mem {ms : List Member} (h : ListFilled ms) {m : Member}
    (hm : m ∈ ms) : m.decl.Filled ∧ ListFilled m.decl.members := forall_find?_of_mem h hm

namespace Part

/-- The declarations in the part, at any depth, and the inherited types that it is made of are
filled. -/
def Filled : Part → Prop
  | file f => Member.ListFilled f.items
  | members ms => Member.ListFilled ms
  | member m => m.decl.Filled ∧ Member.ListFilled m.decl.members
  | decl d => d.Filled ∧ Member.ListFilled d.members
  | block b => Member.ListFilled b.members
  | inheritance c => ∀ i ∈ c.types, Node.tokens i ≠ []
  | inheritedTypes is => ∀ i ∈ is, Node.tokens i ≠ []
  | inheritedType i => Node.tokens i ≠ []
  | _ => True

theorem forall_filled_ofPreamble (p : Preamble) : ∀ q ∈ ofPreamble p, q.Filled := by
  simp [ofPreamble, Filled]

theorem forall_filled_ofNominalHead {h : NominalHead}
    (htypes : ∀ c ∈ h.inheritance, ∀ i ∈ c.types, Node.tokens i ≠ []) :
    ∀ q ∈ ofNominalHead h, q.Filled := by
  refine List.forall_mem_append.2 ⟨forall_filled_ofPreamble h.preamble, ?_⟩
  simpa [Filled, or_imp, forall_and] using htypes

theorem forall_filled_ofExtensionHead {h : ExtensionHead}
    (htypes : ∀ c ∈ h.inheritance, ∀ i ∈ c.types, Node.tokens i ≠ []) :
    ∀ q ∈ ofExtensionHead h, q.Filled := by
  refine List.forall_mem_append.2 ⟨forall_filled_ofPreamble h.preamble, ?_⟩
  simpa [Filled, or_imp, forall_and] using htypes

theorem forall_filled_ofDecl {d : Decl} (hd : (decl d).Filled) : ∀ q ∈ ofDecl d, q.Filled := by
  obtain ⟨⟨-, htypes⟩, hmembers⟩ := hd
  cases d with
  | enum d | nominal d =>
    exact List.forall_mem_append.2 ⟨forall_filled_ofNominalHead htypes,
      List.forall_mem_singleton.2 hmembers⟩
  | extension d =>
    exact List.forall_mem_append.2 ⟨forall_filled_ofExtensionHead htypes,
      List.forall_mem_singleton.2 hmembers⟩
  | enumCase d | binding d | raw d =>
    refine List.forall_mem_append.2 ⟨forall_filled_ofPreamble d.preamble, ?_⟩
    simp [Filled, or_imp, forall_and]

theorem Filled.forall_children {p : Part} (h : p.Filled) : ∀ q ∈ p.children, q.Filled := by
  cases p with
  | members ms =>
    rw [children, List.forall_mem_map]
    exact fun m hm ↦ Member.ListFilled.of_mem h hm
  | decl d => exact forall_filled_ofDecl h
  | file | member | block | inheritance | inheritedTypes => simpa [children, Filled] using h
  | type t => cases t <;> simp [children, ofType, Filled]
  | expr e => cases e <;> simp [children, ofExpr, Filled]
  | _ => simp [children, Filled, or_imp, forall_and]

/-- Whatever stands in a filled part is filled. -/
theorem Contains.filled {root p : Part} (h : root.Contains p) (hroot : root.Filled) : p.Filled :=
  h.of_closed (fun _ hq ↦ hq.forall_children) hroot

end Part

/-! ### What is read has tokens -/

namespace Grammar

theorem tokens_ne_nil_of_inheritedTypes {ts rest : List Token} {is : List InheritedType}
    (h : inheritedTypes ts = .ok (is, rest)) : ∀ i ∈ is, Node.tokens i ≠ [] := by
  have hcons {ts rest : List Token} {t : TypeRef} (ht : type ts = .ok (t, rest))
      (comma : Option Token) : Node.tokens (InheritedType.mk t comma) ≠ [] :=
    List.append_ne_nil_of_left_ne_nil (tokens_ne_nil_of_type ht) _
  fun_induction inheritedTypes ts generalizing is rest with
  | case1 | case2 => simp at h
  | case3 ts t rest₁ ht _ is₁ rest₂ _ ih =>
    obtain ⟨rfl, rfl⟩ := ok_pair_inj.1 h
    exact List.forall_mem_cons.2 ⟨hcons ht _, ih ‹_›⟩
  | case4 ts t rest₁ ht =>
    obtain ⟨rfl, rfl⟩ := ok_pair_inj.1 h
    exact List.forall_mem_singleton.2 (hcons ht _)

theorem tokens_ne_nil_of_inheritance {ts rest : List Token} {clause : Option InheritanceClause}
    (h : inheritance ts = .ok (clause, rest)) :
    ∀ c ∈ clause, ∀ i ∈ c.types, Node.tokens i ≠ [] := by
  unfold inheritance at h
  split at h
  · obtain ⟨rfl, rfl⟩ := ok_pair_inj.1 h
    simp
  split at h
  · obtain ⟨⟨types, ts'⟩, ht, h⟩ := bind_eq_ok.1 h
    obtain ⟨rfl, rfl⟩ := ok_pair_inj.1 h
    rintro c ⟨⟩
    exact tokens_ne_nil_of_inheritedTypes ht
  · obtain ⟨rfl, rfl⟩ := ok_pair_inj.1 h
    simp

theorem inheritance_of_nominalHead {expected : String} {p : Preamble} {keyword : Token}
    {ts rest : List Token} {head : NominalHead}
    (h : nominalHead expected p keyword ts = .ok (head, rest)) :
    ∃ us vs, inheritance us = .ok (head.inheritance, vs) := by
  obtain ⟨⟨name, ts₁⟩, -, h⟩ := bind_eq_ok.1 h
  obtain ⟨⟨gen, ts₂⟩, -, h⟩ := bind_eq_ok.1 h
  obtain ⟨⟨inh, ts₃⟩, hinh, h⟩ := bind_eq_ok.1 h
  obtain ⟨rfl, -⟩ := ok_pair_inj.1 h
  exact ⟨ts₂, ts₃, hinh⟩

theorem inheritance_of_extensionHead {p : Preamble} {keyword : Token} {ts rest : List Token}
    {head : ExtensionHead} (h : extensionHead p keyword ts = .ok (head, rest)) :
    ∃ us vs, inheritance us = .ok (head.inheritance, vs) := by
  obtain ⟨⟨ty, ts₁⟩, -, h⟩ := bind_eq_ok.1 h
  obtain ⟨⟨inh, ts₂⟩, hinh, h⟩ := bind_eq_ok.1 h
  obtain ⟨rfl, -⟩ := ok_pair_inj.1 h
  exact ⟨ts₁, ts₂, hinh⟩

theorem filled_of_opening {ts rest : List Token} {o : Opening} {d : Decl}
    (hopen : opening ts = .ok (o, rest)) (hstarts : o.Starts d) : d.Filled := by
  refine ⟨tokens_ne_nil_of_opening hopen hstarts, ?_⟩
  obtain ⟨p, ts₁, -, h⟩ := opening_eq_ok.1 hopen
  cases h with
  | enum _ h | nominal _ h =>
    obtain ⟨block, rfl⟩ := hstarts
    obtain ⟨us, vs, hinh⟩ := inheritance_of_nominalHead h
    exact tokens_ne_nil_of_inheritance hinh
  | extension _ h =>
    obtain ⟨block, rfl⟩ := hstarts
    obtain ⟨us, vs, hinh⟩ := inheritance_of_extensionHead h
    exact tokens_ne_nil_of_inheritance hinh
  | enumCase | binding | raw =>
    cases hstarts
    rintro c ⟨⟩

theorem ItemsRead.listFilled {ts last : List Token} {ms : List Member}
    (h : ItemsRead ts ms last) : Member.ListFilled ms := by
  intro path m hfind
  obtain ⟨us, o, rest, -, hopen, hstarts⟩ := h.exists_opening hfind
  exact filled_of_opening hopen hstarts

end Grammar

/-! ### The parts of a file -/

namespace Part

/-- The nodes of an item list, an attribute list or an inheritance list lie one after the other. -/
def SiblingsApart : Part → Prop
  | members ms => ms.Pairwise Node.Before
  | attributes as => as.Pairwise Node.Before
  | inheritedTypes is => is.Pairwise Node.Before
  | _ => True

theorem siblingsApart_of_filled {source : String} {s : TokenStream}
    (hs : TokenStream.ofSource source = .ok s) {p : Part} (hsub : p.tokens <:+: s.toList)
    (hfilled : p.Filled) : p.SiblingsApart := by
  cases p with
  | members ms =>
    refine Node.pairwise_before_of_infix hs hsub fun m hm ↦ ?_
    have hdecl := (Member.ListFilled.of_mem hfilled hm).1.tokens_ne
    obtain ⟨d, semicolon⟩ := m
    exact List.append_ne_nil_of_left_ne_nil hdecl _
  | attributes as =>
    exact Node.pairwise_before_of_infix hs hsub fun a _ ↦ List.cons_ne_nil a.atSign _
  | inheritedTypes is => exact Node.pairwise_before_of_infix hs hsub hfilled
  | _ => trivial

/-- How a part lies in the source that it was read from. -/
structure Lies (source : String) (p : Part) : Prop where
  /-- A part with tokens covers its trimmed text. -/
  span : p.tokens ≠ [] → ∃ s, p.span = some s ∧ s.Covers source p.trimmed ∧
    s.slice source = p.trimmed
  siblings : p.SiblingsApart

end Part

/-- Every part of a file, at any depth, covers its trimmed text in the source. -/
theorem lies_of_parseSource {source : String} {file : SourceFile}
    (hparse : parseSource source = .ok file) {p : Part} (hp : (Part.file file).Contains p) :
    p.Lies source := by
  obtain ⟨s, hs, htokens⟩ := tokens_of_parseSource hparse
  obtain ⟨s', -, hread, -⟩ := parseSource_eq_ok.1 hparse
  have hsub : p.tokens <:+: s.toList := htokens ▸ hp.tokens_infix
  constructor
  · intro hne
    obtain ⟨α, _, a, ha, hspan, htrimmed⟩ := p.exists_node
    rw [ha] at hsub hne
    obtain ⟨span, hcovered, hcovers⟩ := Node.exists_span_covers hs hsub hne
    rw [hspan, htrimmed]
    exact ⟨span, hcovered, hcovers, hcovers.slice⟩
  · exact Part.siblingsApart_of_filled hs hsub (hp.filled hread.listFilled)

/-- Two attributes, two inherited types, a dictionary type in another one, and an enum with a
member before it. -/
def tieredSource : String :=
  "// α\n@A @B(1) struct S: P, Q \x7b\n" ++
    "  let m: [K: [L: V]] = [.x: \"é\", .y: [:]]; enum E: R \x7b\x7d\n\x7d"

theorem lies_tieredSource : ∃ file, parseSource tieredSource = .ok file ∧
    (file.items.flatMap (·.decl.attributes)).map Node.span = [some ⟨6, 8⟩, some ⟨9, 14⟩] ∧
    (file.items.flatMap (·.decl.members)).map Node.span = [some ⟨34, 75⟩, some ⟨76, 88⟩] ∧
    ∀ p, (Part.file file).Contains p → p.Lies tieredSource := by
  have hspans : (parseSource tieredSource).toOption.any (fun file ↦ decide
      ((file.items.flatMap (·.decl.attributes)).map Node.span = [some ⟨6, 8⟩, some ⟨9, 14⟩] ∧
      (file.items.flatMap (·.decl.members)).map Node.span = [some ⟨34, 75⟩, some ⟨76, 88⟩])) =
      true := by
    decide +kernel
  cases hparse : parseSource tieredSource with
  | error e =>
    rw [hparse] at hspans
    cases hspans
  | ok file =>
    rw [hparse] at hspans
    obtain ⟨hattributes, hmembers⟩ := of_decide_eq_true hspans
    exact ⟨file, rfl, hattributes, hmembers, fun p hp ↦ lies_of_parseSource hparse hp⟩

end EnumForge
