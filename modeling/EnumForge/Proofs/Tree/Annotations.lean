import EnumForge.Proofs.Tree.Part

/-!
# The attributes of a tree

Attributes stand in front of declarations only and hold none themselves.  So the attributes of a
tree, at any depth, have an order, which is that of their first tokens among the tokens of the tree.
-/

namespace EnumForge

mutual

/-- The attributes of a declaration and of all declarations inside it, in source order. -/
def Decl.annotations : Decl → List Attribute
  | .enum d => d.annotations
  | .nominal d => d.annotations
  | .extension d => d.annotations
  | .enumCase d => d.preamble.attributes
  | .binding d => d.preamble.attributes
  | .raw d => d.preamble.attributes

def NominalDecl.annotations : NominalDecl → List Attribute
  | ⟨head, block⟩ => head.preamble.attributes ++ block.annotations

def ExtensionDecl.annotations : ExtensionDecl → List Attribute
  | ⟨head, block⟩ => head.preamble.attributes ++ block.annotations

def MemberBlock.annotations : MemberBlock → List Attribute
  | ⟨_, members, _⟩ => Member.listAnnotations members

def Member.annotations : Member → List Attribute
  | ⟨decl, _⟩ => decl.annotations

def Member.listAnnotations : List Member → List Attribute
  | [] => []
  | m :: ms => m.annotations ++ Member.listAnnotations ms

end

/-- The attributes of a file, at any depth, in source order. -/
def SourceFile.annotations (f : SourceFile) : List Attribute := Member.listAnnotations f.items

theorem Member.listAnnotations_eq_flatMap (ms : List Member) :
    listAnnotations ms = ms.flatMap annotations := by
  induction ms with
  | nil => rfl
  | cons m ms ih => rw [listAnnotations, ih, List.flatMap_cons]

/-! ### The order of their first tokens -/

theorem Attribute.sublist_tokens (as : List Attribute) :
    (as.map atSign).Sublist (Node.tokens as) := by
  induction as with
  | nil => exact .slnil
  | cons a as ih => exact (ih.trans (List.sublist_append_right _ _)).cons_cons a.atSign

theorem Attribute.sublist_tokens_preamble (p : Preamble) (ts : List Token) :
    (p.attributes.map atSign).Sublist (Node.tokens p ++ ts) :=
  ((sublist_tokens p.attributes).trans (List.sublist_append_left _ _)).trans
    (List.sublist_append_left _ _)

mutual

theorem Decl.sublist_tokens (d : Decl) : (d.annotations.map Attribute.atSign).Sublist d.tokens :=
  match d with
  | .enum d => d.sublist_tokens
  | .nominal d => d.sublist_tokens
  | .extension d => d.sublist_tokens
  | .enumCase d => Attribute.sublist_tokens_preamble d.preamble _
  | .binding d => Attribute.sublist_tokens_preamble d.preamble _
  | .raw d => Attribute.sublist_tokens_preamble d.preamble _

theorem NominalDecl.sublist_tokens (d : NominalDecl) :
    (d.annotations.map Attribute.atSign).Sublist d.tokens :=
  match d with
  | ⟨head, block⟩ => by
    rw [NominalDecl.annotations, List.map_append, NominalDecl.tokens]
    exact (Attribute.sublist_tokens_preamble head.preamble _).append block.sublist_tokens

theorem ExtensionDecl.sublist_tokens (d : ExtensionDecl) :
    (d.annotations.map Attribute.atSign).Sublist d.tokens :=
  match d with
  | ⟨head, block⟩ => by
    rw [ExtensionDecl.annotations, List.map_append, ExtensionDecl.tokens]
    exact (Attribute.sublist_tokens_preamble head.preamble _).append block.sublist_tokens

theorem MemberBlock.sublist_tokens (b : MemberBlock) :
    (b.annotations.map Attribute.atSign).Sublist b.tokens :=
  match b with
  | ⟨left, members, right⟩ =>
    ((Member.sublist_listTokens members).trans (List.sublist_append_left _ [right])).cons left

theorem Member.sublist_tokens (m : Member) :
    (m.annotations.map Attribute.atSign).Sublist m.tokens :=
  match m with
  | ⟨decl, _⟩ => decl.sublist_tokens.trans (List.sublist_append_left _ _)

theorem Member.sublist_listTokens (ms : List Member) :
    ((Member.listAnnotations ms).map Attribute.atSign).Sublist (Member.listTokens ms) :=
  match ms with
  | [] => .slnil
  | m :: ms => by
    rw [Member.listAnnotations, List.map_append, Member.listTokens]
    exact m.sublist_tokens.append (Member.sublist_listTokens ms)

end

theorem SourceFile.sublist_tokens (f : SourceFile) :
    (f.annotations.map Attribute.atSign).Sublist (Node.tokens f) := by
  have hitems : Node.tokens f = Member.listTokens f.items ++ [f.endOfFile] := by
    rw [← Member.tokens_list]
    rfl
  rw [hitems]
  exact (Member.sublist_listTokens f.items).trans (List.sublist_append_left _ _)

/-! ### None is left out -/

namespace Part

/-- The attributes that stand in the part. -/
def annotations : Part → List Attribute
  | file f => f.annotations
  | members ms => Member.listAnnotations ms
  | member m => m.annotations
  | decl d => d.annotations
  | block b => b.annotations
  | attributes as => as
  | attr a => [a]
  | _ => []

theorem annotations_subset_of_mem_nominalHead {h : NominalHead} :
    ∀ q ∈ ofNominalHead h, q.annotations ⊆ h.preamble.attributes := by
  simp [ofNominalHead, ofPreamble, annotations, or_imp, forall_and]

theorem annotations_subset_of_mem_extensionHead {h : ExtensionHead} :
    ∀ q ∈ ofExtensionHead h, q.annotations ⊆ h.preamble.attributes := by
  simp [ofExtensionHead, ofPreamble, annotations, or_imp, forall_and]

theorem annotations_subset_of_mem_decl {d : Decl} :
    ∀ q ∈ ofDecl d, q.annotations ⊆ d.annotations := by
  cases d with
  | enum d | nominal d =>
    obtain ⟨head, block⟩ := d
    refine List.forall_mem_append.2 ⟨fun q hq ↦ ?_, List.forall_mem_singleton.2 ?_⟩
    · exact List.Subset.trans (annotations_subset_of_mem_nominalHead q hq)
        (List.subset_append_left _ _)
    · exact List.subset_append_right _ _
  | extension d =>
    obtain ⟨head, block⟩ := d
    refine List.forall_mem_append.2 ⟨fun q hq ↦ ?_, List.forall_mem_singleton.2 ?_⟩
    · exact List.Subset.trans (annotations_subset_of_mem_extensionHead q hq)
        (List.subset_append_left _ _)
    · exact List.subset_append_right _ _
  | enumCase d | binding d | raw d =>
    simp [ofDecl, ofPreamble, annotations, Decl.annotations, or_imp, forall_and]

theorem annotations_subset_of_mem_children {p : Part} :
    ∀ q ∈ p.children, q.annotations ⊆ p.annotations := by
  cases p with
  | members ms =>
    rw [children, List.forall_mem_map, annotations, Member.listAnnotations_eq_flatMap]
    exact fun m hm a ha ↦ List.mem_flatMap.2 ⟨m, hm, ha⟩
  | decl d => exact annotations_subset_of_mem_decl
  | attributes as => simp [children, annotations]
  | member m =>
    obtain ⟨d, semicolon⟩ := m
    simp [children, annotations, Member.annotations]
  | file f => simp [children, annotations, SourceFile.annotations]
  | block b =>
    obtain ⟨left, members, right⟩ := b
    simp [children, annotations, MemberBlock.annotations]
  | type t => cases t <;> simp [children, ofType, annotations]
  | expr e => cases e <;> simp [children, ofExpr, annotations]
  | _ => simp [children, annotations, or_imp, forall_and]

theorem Contains.annotations_subset {root p : Part} (h : root.Contains p) :
    p.annotations ⊆ root.annotations := by
  induction h with
  | self => exact List.Subset.refl _
  | child _ hq ih => exact List.Subset.trans (annotations_subset_of_mem_children _ hq) ih

end Part

/-! ### Each stands where it is found -/

namespace Part

theorem Contains.trans {root p q : Part} (h : root.Contains p) (hq : p.Contains q) :
    root.Contains q := by
  induction hq with
  | self => exact h
  | child _ hq ih => exact ih.child hq

section

variable {p : Part} {as : List Attribute} (has : attributes as ∈ p.children) {a : Attribute}
include has

theorem contains_of_mem_attributes (ha : a ∈ as) : p.Contains (attr a) :=
  (Contains.self.child has).child (List.mem_map_of_mem ha)

theorem contains_of_group {b : MemberBlock} (hb : block b ∈ p.children)
    (ha : a ∈ as ∨ (block b).Contains (attr a)) : p.Contains (attr a) :=
  ha.elim (contains_of_mem_attributes has) (Contains.self.child hb).trans

end

end Part

mutual

theorem Decl.contains_of_mem_annotations (d : Decl) :
    ∀ a ∈ d.annotations, (Part.decl d).Contains (Part.attr a) :=
  match d with
  | .enum d => fun a ha ↦ Part.contains_of_group List.mem_cons_self
      (List.mem_append_right _ List.mem_cons_self) (d.cases_of_mem_annotations a ha)
  | .nominal d => fun a ha ↦ Part.contains_of_group List.mem_cons_self
      (List.mem_append_right _ List.mem_cons_self) (d.cases_of_mem_annotations a ha)
  | .extension d => fun a ha ↦ Part.contains_of_group List.mem_cons_self
      (List.mem_append_right _ List.mem_cons_self) (d.cases_of_mem_annotations a ha)
  | .enumCase _ | .binding _ | .raw _ => fun _ ↦ Part.contains_of_mem_attributes List.mem_cons_self

theorem NominalDecl.cases_of_mem_annotations (d : NominalDecl) : ∀ a ∈ d.annotations,
    a ∈ d.head.preamble.attributes ∨ (Part.block d.block).Contains (Part.attr a) :=
  match d with
  | ⟨_, block⟩ => fun a ha ↦ (List.mem_append.1 ha).imp_right (block.contains_of_mem_annotations a)

theorem ExtensionDecl.cases_of_mem_annotations (d : ExtensionDecl) : ∀ a ∈ d.annotations,
    a ∈ d.head.preamble.attributes ∨ (Part.block d.block).Contains (Part.attr a) :=
  match d with
  | ⟨_, block⟩ => fun a ha ↦ (List.mem_append.1 ha).imp_right (block.contains_of_mem_annotations a)

theorem MemberBlock.contains_of_mem_annotations (b : MemberBlock) :
    ∀ a ∈ b.annotations, (Part.block b).Contains (Part.attr a) :=
  match b with
  | ⟨_, members, _⟩ => fun a ha ↦
    have ⟨_, hm, hcontains⟩ := Member.exists_contains members a ha
    .trans (.child (.child .self (List.mem_cons_of_mem _ List.mem_cons_self))
      (List.mem_map_of_mem hm)) hcontains

theorem Member.contains_of_mem_annotations (m : Member) :
    ∀ a ∈ m.annotations, (Part.member m).Contains (Part.attr a) :=
  match m with
  | ⟨decl, _⟩ => fun a ha ↦
    .trans (.child .self List.mem_cons_self) (decl.contains_of_mem_annotations a ha)

theorem Member.exists_contains (ms : List Member) :
    ∀ a ∈ Member.listAnnotations ms, ∃ m ∈ ms, (Part.member m).Contains (Part.attr a) :=
  match ms with
  | [] => by simp [Member.listAnnotations]
  | m :: ms => fun a ha ↦ (List.mem_append.1 ha).elim
      (fun ha ↦ ⟨_, List.mem_cons_self, m.contains_of_mem_annotations a ha⟩)
      (fun ha ↦
        have ⟨_, hn, hcontains⟩ := Member.exists_contains ms a ha
        ⟨_, List.mem_cons_of_mem _ hn, hcontains⟩)

end

/-- The attributes of a file are those that stand in it. -/
theorem SourceFile.mem_annotations_iff {f : SourceFile} {a : Attribute} :
    a ∈ f.annotations ↔ (Part.file f).Contains (Part.attr a) := by
  refine ⟨fun ha ↦ ?_, fun h ↦ h.annotations_subset (List.mem_singleton_self a)⟩
  obtain ⟨m, hm, hcontains⟩ := Member.exists_contains f.items a ha
  have hitem : (Part.file f).Contains (.member m) :=
    .child (.child .self List.mem_cons_self) (List.mem_map_of_mem hm)
  exact hitem.trans hcontains

end EnumForge
