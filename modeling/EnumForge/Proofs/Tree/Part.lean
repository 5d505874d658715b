import EnumForge.Tree.Decl
import EnumForge.Proofs.Tree.Walk

/-!
# The parts of a tree

A part is a node of any kind; lists of nodes and runs of raw tokens count as nodes too.  The tokens
of a part are those of its children in their order, so the tokens of whatever stands inside a part,
at any depth, are consecutive tokens of it.
-/

namespace EnumForge

open Text (Span)

/-- A node of any kind. -/
inductive Part where
  | file (f : SourceFile)
  | members (ms : List Member)
  | member (m : Member)
  | decl (d : Decl)
  | block (b : MemberBlock)
  | attributes (as : List Attribute)
  | attr (a : Attribute)
  | modifiers (ms : List Modifier)
  | modifier (m : Modifier)
  | inheritance (c : InheritanceClause)
  | inheritedTypes (is : List InheritedType)
  | inheritedType (i : InheritedType)
  | typeClause (c : TypeClause)
  | initializer (i : Initializer)
  | caseElements (es : List CaseElement)
  | caseElement (e : CaseElement)
  | type (t : TypeRef)
  | expr (e : Expr)
  | entries (es : List DictionaryElement)
  | entry (e : DictionaryElement)
  /-- Raw tokens: arguments, generic parameters, `where` clauses, accessors and bodies. -/
  | run (ts : List Token)
  | token (t : Token)

namespace Part

/-- What `f` reads off the node that the part is. -/
def read {β : Type} (f : {α : Type} → [Node α] → α → β) : Part → β
  | file a => f a
  | members a => f a
  | member a => f a
  | decl a => f a
  | block a => f a
  | attributes a => f a
  | attr a => f a
  | modifiers a => f a
  | modifier a => f a
  | inheritance a => f a
  | inheritedTypes a => f a
  | inheritedType a => f a
  | typeClause a => f a
  | initializer a => f a
  | caseElements a => f a
  | caseElement a => f a
  | type a => f a
  | expr a => f a
  | entries a => f a
  | entry a => f a
  | run a => f a
  | token a => f a

def tokens (p : Part) : List Token := p.read Node.tokens

def span (p : Part) : Option Span := p.read Node.span

def trimmed (p : Part) : String := p.read Node.trimmed

/-- What holds of the nodes of every type holds of the node that a part is. -/
theorem exists_node (p : Part) : ∃ (α : Type) (_ : Node α) (a : α),
    p.tokens = Node.tokens a ∧ p.span = Node.span a ∧ p.trimmed = Node.trimmed a := by
  cases p <;> exact ⟨_, _, _, rfl, rfl, rfl⟩

/-! ### What a part is made of -/

def ofPreamble (p : Preamble) : List Part := [attributes p.attributes, modifiers p.modifiers]

def ofNominalHead (h : NominalHead) : List Part :=
  ofPreamble h.preamble ++ token h.keyword :: token h.name :: (h.generics.toList.map run ++
    h.inheritance.toList.map inheritance ++ h.whereClause.toList.map run)

def ofExtensionHead (h : ExtensionHead) : List Part :=
  ofPreamble h.preamble ++ token h.keyword :: type h.extended ::
    (h.inheritance.toList.map inheritance ++ h.whereClause.toList.map run)

def ofDecl : Decl → List Part
  | .enum d => ofNominalHead d.head ++ [block d.block]
  | .nominal d => ofNominalHead d.head ++ [block d.block]
  | .extension d => ofExtensionHead d.head ++ [block d.block]
  | .enumCase d => ofPreamble d.preamble ++ [token d.keyword, caseElements d.elements]
  | .binding d => ofPreamble d.preamble ++ token d.keyword :: token d.nameToken ::
      (d.typeClause.toList.map typeClause ++ d.initializer.toList.map initializer ++
        d.accessors.toList.map run)
  | .raw d => ofPreamble d.preamble ++ [run d.body]

def ofType : TypeRef → List Part
  | .identifier name => [token name]
  | .dictionary left key colon value right =>
    [token left, type key, token colon, type value, token right]
  | .raw ts => [run ts]

def ofExpr : Expr → List Part
  | .string literal => [token literal]
  | .implicitMember period name => [token period, token name]
  | .emptyDictionary left colon right => [token left, token colon, token right]
  | .dictionary left elements right => [token left, entries elements, token right]
  | .raw ts => [run ts]

/-- What a part is made of, in source order. -/
def children : Part → List Part
  | file f => [members f.items, token f.endOfFile]
  | members ms => ms.map member
  | member m => decl m.decl :: m.semicolon.toList.map token
  | decl d => ofDecl d
  | block b => [token b.leftBrace, members b.members, token b.rightBrace]
  | attributes as => as.map attr
  | attr a => token a.atSign :: token a.nameToken :: a.arguments.toList.map run
  | modifiers ms => ms.map modifier
  | modifier m => token m.name :: m.detail.toList.map run
  | inheritance c => [token c.colon, inheritedTypes c.types]
  | inheritedTypes is => is.map inheritedType
  | inheritedType i => type i.type :: i.comma.toList.map token
  | typeClause c => [token c.colon, type c.type]
  | initializer i => [token i.equal, expr i.value]
  | caseElements es => es.map caseElement
  | caseElement e => token e.name :: (e.associatedValue.toList.map run ++
      e.rawValue.toList.map initializer ++ e.comma.toList.map token)
  | type t => ofType t
  | expr e => ofExpr e
  | entries es => es.map entry
  | entry e => expr e.key :: token e.colon :: expr e.value :: e.comma.toList.map token
  | run ts => ts.map token
  | token _ => []

/-- `root.Contains p`: the part `p` is `root`, or it stands inside `root` at some depth. -/
inductive Contains (root : Part) : Part → Prop where
  | self : Contains root root
  | child {p q : Part} (h : Contains root p) (hq : q ∈ p.children) : Contains root q

/-- What the children of a part have whenever the part has it, everything inside has. -/
theorem Contains.of_closed {P : Part → Prop} (hP : ∀ p, P p → ∀ q ∈ p.children, P q)
    {root p : Part} (h : root.Contains p) (hroot : P root) : P p := by
  induction h with
  | self => exact hroot
  | child _ hq ih => exact hP _ ih _ hq

/-! ### The tokens of the children -/

theorem flatMap_toList {α : Type} [Node α] {f : α → Part}
    (hf : ∀ a, (f a).tokens = Node.tokens a) (o : Option α) :
    (o.toList.map f).flatMap tokens = Node.tokens o := by
  cases o with
  | none => rfl
  | some a => simp [hf, Node.tokens]

theorem flatMap_map {α : Type} [Node α] {f : α → Part}
    (hf : ∀ a, (f a).tokens = Node.tokens a) (as : List α) :
    (as.map f).flatMap tokens = Node.tokens as := by
  induction as with
  | nil => rfl
  | cons a as ih =>
    rw [List.map_cons, List.flatMap_cons, hf, ih]
    rfl

theorem flatMap_ofPreamble (p : Preamble) : (ofPreamble p).flatMap tokens = Node.tokens p := by
  simp [ofPreamble, tokens, read, Node.tokens]

theorem flatMap_ofNominalHead (h : NominalHead) :
    (ofNominalHead h).flatMap tokens = Node.tokens h := by
  simp only [ofNominalHead, List.flatMap_append, List.flatMap_cons, flatMap_ofPreamble,
    flatMap_toList (f := run) fun _ ↦ rfl, flatMap_toList (f := inheritance) fun _ ↦ rfl]
  simp [tokens, read, Node.tokens]

theorem flatMap_ofExtensionHead (h : ExtensionHead) :
    (ofExtensionHead h).flatMap tokens = Node.tokens h := by
  simp only [ofExtensionHead, List.flatMap_append, List.flatMap_cons, flatMap_ofPreamble,
    flatMap_toList (f := run) fun _ ↦ rfl, flatMap_toList (f := inheritance) fun _ ↦ rfl]
  simp [tokens, read, Node.tokens]

theorem flatMap_ofDecl (d : Decl) : (ofDecl d).flatMap tokens = Node.tokens d := by
  cases d with
  | enum d | nominal d =>
    obtain ⟨head, b⟩ := d
    rw [ofDecl, List.flatMap_append, flatMap_ofNominalHead, List.flatMap_singleton]
    rfl
  | extension d =>
    obtain ⟨head, b⟩ := d
    rw [ofDecl, List.flatMap_append, flatMap_ofExtensionHead, List.flatMap_singleton]
    rfl
  | enumCase d =>
    rw [ofDecl, List.flatMap_append, flatMap_ofPreamble]
    simp [tokens, read, Node.tokens, Decl.tokens]
  | binding d =>
    simp only [ofDecl, List.flatMap_append, List.flatMap_cons, flatMap_ofPreamble,
      flatMap_toList (f := typeClause) fun _ ↦ rfl, flatMap_toList (f := initializer) fun _ ↦ rfl,
      flatMap_toList (f := run) fun _ ↦ rfl]
    simp [tokens, read, Node.tokens, Decl.tokens]
  | raw d =>
    rw [ofDecl, List.flatMap_append, flatMap_ofPreamble]
    simp [tokens, read, Node.tokens, Decl.tokens]

theorem flatMap_ofType (t : TypeRef) : (ofType t).flatMap tokens = Node.tokens t := by
  cases t <;> simp [ofType, tokens, read, Node.tokens, TypeRef.tokens]

theorem flatMap_ofExpr (e : Expr) : (ofExpr e).flatMap tokens = Node.tokens e := by
  cases e with
  | dictionary left elements right =>
    show left :: (Node.tokens elements ++ [right]) = Expr.tokens (.dictionary left elements right)
    rw [DictionaryElement.tokens_list, Expr.tokens]
  | string | implicitMember | emptyDictionary | raw =>
    simp [ofExpr, tokens, read, Node.tokens, Expr.tokens]

/-- The tokens of a part other than a token are those of its children. -/
theorem flatMap_children (p : Part) :
    p.children.flatMap tokens = p.tokens ∨ ∃ t, p = token t := by
  cases p with
  | token t => exact .inr ⟨t, rfl⟩
  | file f => simp [children, tokens, read, Node.tokens]
  | decl d => exact .inl (flatMap_ofDecl d)
  | type t => exact .inl (flatMap_ofType t)
  | expr e => exact .inl (flatMap_ofExpr e)
  | members | attributes | modifiers | inheritedTypes | caseElements | entries | run =>
    exact .inl (flatMap_map (fun _ ↦ rfl) _)
  | member m =>
    obtain ⟨d, semicolon⟩ := m
    refine .inl ?_
    rw [children, List.flatMap_cons, flatMap_toList fun _ ↦ rfl]
    rfl
  | block b =>
    obtain ⟨left, ms, right⟩ := b
    refine .inl ?_
    show left :: (Node.tokens ms ++ [right]) = MemberBlock.tokens ⟨left, ms, right⟩
    rw [Member.tokens_list, MemberBlock.tokens]
  | attr | modifier | inheritedType =>
    refine .inl ?_
    simp only [children, List.flatMap_cons, flatMap_toList (f := run) fun _ ↦ rfl,
      flatMap_toList (f := token) fun _ ↦ rfl]
    rfl
  | inheritance | typeClause | initializer => simp [children, tokens, read, Node.tokens]
  | caseElement e =>
    refine .inl ?_
    simp only [children, List.flatMap_cons, List.flatMap_append,
      flatMap_toList (f := run) fun _ ↦ rfl, flatMap_toList (f := initializer) fun _ ↦ rfl,
      flatMap_toList (f := token) fun _ ↦ rfl]
    rfl
  | entry e =>
    obtain ⟨key, colon, value, comma⟩ := e
    refine .inl ?_
    simp only [children, List.flatMap_cons, flatMap_toList (f := token) fun _ ↦ rfl]
    rfl

/-- A child is made of consecutive tokens of its parent. -/
theorem tokens_infix_of_mem_children {p q : Part} (hq : q ∈ p.children) :
    q.tokens <:+: p.tokens := by
  obtain ⟨before, after, hsplit⟩ := List.append_of_mem hq
  obtain hp | ⟨t, rfl⟩ := p.flatMap_children
  · rw [← hp, hsplit, List.flatMap_append, List.flatMap_cons]
    exact ⟨before.flatMap tokens, after.flatMap tokens, by rw [List.append_assoc]⟩
  · cases hq

/-- Whatever stands inside a part is made of consecutive tokens of it. -/
theorem Contains.tokens_infix {root p : Part} (h : root.Contains p) :
    p.tokens <:+: root.tokens := by
  induction h with
  | self => exact List.infix_rfl
  | child _ hq ih => exact (tokens_infix_of_mem_children hq).trans ih

end Part

end EnumForge
