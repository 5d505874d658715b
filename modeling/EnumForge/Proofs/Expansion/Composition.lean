import EnumForge.Proofs.Expansion.Reading
import EnumForge.Proofs.Tree.Edit

/-!
# What an expansion is made of

An expanded file is put together item by item, whatever generators are registered: the text of the
item, then the extensions that its attributes brought, and at last the end of the file.  What an
attribute brings depends on its own generator and on the declaration as it was written.  So a
generator that fails costs its own extensions only, and adds one report to its own.
-/

namespace EnumForge

open Node (modifyToken)

/-! ### The block of a group without its attributes -/

theorem NominalDecl.modifyToken_of_lt_head (d : NominalDecl) {i : Nat}
    (hi : i < (Node.tokens d.head).length) (f : Token → Token) :
    modifyToken i f d = ⟨modifyToken i f d.head, d.block⟩ := by
  obtain ⟨head, block⟩ := d
  have himage := Node.modifyToken_image (fun p : NominalHead × MemberBlock ↦ NominalDecl.mk p.1 p.2)
    (b := (head, block)) rfl (fun f p ↦ by simp [Node.mapTokensM, NominalDecl.mapTokensM]) i f
  rw [Node.modifyToken_pair_left head.hasShape block.hasShape hi] at himage
  exact himage

theorem ExtensionDecl.modifyToken_of_lt_head (d : ExtensionDecl) {i : Nat}
    (hi : i < (Node.tokens d.head).length) (f : Token → Token) :
    modifyToken i f d = ⟨modifyToken i f d.head, d.block⟩ := by
  obtain ⟨head, block⟩ := d
  have himage := Node.modifyToken_image
    (fun p : ExtensionHead × MemberBlock ↦ ExtensionDecl.mk p.1 p.2)
    (b := (head, block)) rfl (fun f p ↦ by simp [Node.mapTokensM, ExtensionDecl.mapTokensM]) i f
  rw [Node.modifyToken_pair_left head.hasShape block.hasShape hi] at himage
  exact himage

namespace Decl

theorem isGroup_iff {d : Decl} : d.isGroup = true ↔
    (∃ e, d = .enum e) ∨ (∃ e, d = .nominal e) ∨ ∃ e, d = .extension e := by
  cases d <;> simp [isGroup, block?]

/-- The tokens of the attributes and the one after them stand before the block of a group. -/
theorem block?_modifyToken {d : Decl} (hgroup : d.isGroup = true) {i : Nat}
    (hi : i ≤ (Node.tokens d.attributes).length) (f : Token → Token) :
    (modifyToken i f d).block? = d.block? := by
  obtain ⟨e, rfl⟩ | ⟨e, rfl⟩ | ⟨e, rfl⟩ := isGroup_iff.1 hgroup
  · have hlt : i < (Node.tokens e.head).length := by
      simp [Node.tokens, attributes, preamble] at hi ⊢
      omega
    rw [Node.modifyToken_image Decl.enum rfl (fun f p ↦ by simp [Node.mapTokensM, mapTokensM]),
      e.modifyToken_of_lt_head hlt]
    rfl
  · have hlt : i < (Node.tokens e.head).length := by
      simp [Node.tokens, attributes, preamble] at hi ⊢
      omega
    rw [Node.modifyToken_image Decl.nominal rfl (fun f p ↦ by simp [Node.mapTokensM, mapTokensM]),
      e.modifyToken_of_lt_head hlt]
    rfl
  · have hlt : i < (Node.tokens e.head).length := by
      simp [Node.tokens, attributes, preamble] at hi ⊢
      omega
    rw [Node.modifyToken_image Decl.extension rfl (fun f p ↦ by simp [Node.mapTokensM, mapTokensM]),
      e.modifyToken_of_lt_head hlt]
    rfl

theorem block?_withAttributes (d : Decl) (as : List Attribute) :
    (d.withAttributes as).block? = d.block? := by
  cases d <;> rfl

theorem block?_removeAttribute {d : Decl} (hgroup : d.isGroup = true) (i : Nat) :
    (d.removeAttribute i).block? = d.block? := by
  unfold removeAttribute
  split
  · rfl
  have hle : (Node.tokens (d.attributes.take i)).length ≤
      (Node.tokens (d.attributes.eraseIdx i)).length := by
    rw [List.eraseIdx_eq_take_drop_succ]
    simp [Node.tokens]
  rw [block?_modifyToken, block?_withAttributes]
  · rw [isGroup, block?_withAttributes]
    exact hgroup
  · rw [attributes_withAttributes]
    exact hle

theorem block?_removeAttached {d : Decl} (hgroup : d.isGroup = true) (test : String → Bool) :
    (d.removeAttached test).block? = d.block? := by
  unfold removeAttached
  generalize d.attached test = steps
  induction steps generalizing d with
  | nil => rfl
  | cons _ steps ih =>
    have hstep : (d.removeFirst test).block? = d.block? := by
      unfold removeFirst
      split
      · exact block?_removeAttribute hgroup _
      · rfl
    rw [List.foldl_cons, ih (by rw [isGroup, hstep]; exact hgroup), hstep]

theorem nestedGroups_eq (d : Decl) :
    d.nestedGroups = (d.block?.map MemberBlock.nestedGroups).getD [] := by
  rcases d with ⟨⟨head, block⟩⟩ | ⟨⟨head, block⟩⟩ | ⟨⟨head, block⟩⟩ | d | d | d <;>
    simp [nestedGroups, block?, NominalDecl.nestedGroups, ExtensionDecl.nestedGroups]

theorem nestedGroups_removeAttached {d : Decl} (hgroup : d.isGroup = true)
    (test : String → Bool) : (d.removeAttached test).nestedGroups = d.nestedGroups := by
  rw [nestedGroups_eq, nestedGroups_eq, block?_removeAttached hgroup]

end Decl

/-! ### Registries that differ in one generator -/

namespace Registry

theorem names_register {r : Registry} {g : Generator} (hg : r.contains g.name = true) :
    (r.register g).names = r.names := by
  have hmem : g.name ∈ r.entries.map Generator.name := List.contains_iff_mem.1 hg
  unfold register
  rw [dif_pos hmem]
  exact map_name_replaceEntry g r.entries

theorem contains_register {r : Registry} {g : Generator} (hg : r.contains g.name = true) :
    (r.register g).contains = r.contains := by
  funext name
  rw [contains, names_register hg, contains]

theorem entries_register {r : Registry} {g : Generator} (hg : r.contains g.name = true) :
    (r.register g).entries = replaceEntry g r.entries := by
  have hmem : g.name ∈ r.entries.map Generator.name := List.contains_iff_mem.1 hg
  unfold register
  rw [dif_pos hmem]

theorem get?_register_of_ne {r : Registry} {g : Generator} (hg : r.contains g.name = true)
    {name : String} (hne : name ≠ g.name) : (r.register g).get? name = r.get? name := by
  rw [get?, entries_register hg, get?]
  induction r.entries with
  | nil => rfl
  | cons e es ih =>
    have hcons : replaceEntry g (e :: es) =
        (if e.name = g.name then g else e) :: replaceEntry g es := rfl
    rw [hcons]
    by_cases he : e.name = g.name
    · rw [if_pos he, List.find?_cons_of_neg (by simpa using hne.symm),
        List.find?_cons_of_neg (by simpa [he] using hne.symm), ih]
    · rw [if_neg he, List.find?_cons, List.find?_cons, ih]

theorem get?_register_self {r : Registry} {g : Generator} (hg : r.contains g.name = true) :
    (r.register g).get? g.name = some g := by
  have hmem : g.name ∈ r.entries.map Generator.name := List.contains_iff_mem.1 hg
  rw [get?, entries_register hg]
  generalize r.entries = es at hmem
  induction es with
  | nil => simp at hmem
  | cons e es ih =>
    have hcons : replaceEntry g (e :: es) =
        (if e.name = g.name then g else e) :: replaceEntry g es := rfl
    rw [hcons]
    by_cases he : e.name = g.name
    · rw [if_pos he, List.find?_cons_of_pos (by simp)]
    · rw [if_neg he, List.find?_cons_of_neg (by simpa using he)]
      apply ih
      simpa [Ne.symm he] using hmem

theorem exists_get?_of_contains {r : Registry} {name : String} (h : r.contains name = true) :
    ∃ g, r.get? name = some g := by
  obtain ⟨g, hg, hname⟩ := List.mem_map.1 (List.contains_iff_mem.1 h)
  refine Option.isSome_iff_exists.1 (List.find?_isSome.2 ⟨g, hg, ?_⟩)
  simpa using hname

end Registry

/-! ### Items and what follows them -/

namespace Expansion

/-- The attributes of an item that are run. -/
def runAttributes (r : Registry) (m : Member) : List Attribute :=
  if m.decl.isGroup then m.decl.attached r.contains else []

/-- The tokens that are left of an item itself: a group loses the attributes that are run, and the
tokens behind them take over their leading trivia where they start a line. -/
def ownTokens (r : Registry) (m : Member) : List Token :=
  if m.decl.isGroup then m.decl.stripped r.contains ++ Node.tokens m.semicolon else Node.tokens m

/-- A generated extension behind an item, with a blank line in the place of its leading trivia. -/
def extensionText (x : ExtensionDecl) : String :=
  "\n\n" ++ Node.trimmed x ++ (Node.trailing x).text

/-- What one attribute of `d` brings and reports, by what its generator answers. -/
inductive Contributes (g : Generator) (d : Decl) (a : Attribute) :
    List ExtensionDecl → List Diagnostic → Prop where
  | generated {xs : List ExtensionDecl} {ds : List Diagnostic}
      (h : g.run a d (requestedConformances d g.conformance) = ⟨.ok xs, ds⟩) :
      Contributes g d a xs ds
  | failed {err : ExpansionError} {ds : List Diagnostic}
      (h : g.run a d (requestedConformances d g.conformance) = ⟨.error err, ds⟩) :
      Contributes g d a []
        (ds ++ [⟨.error, ⟨"aeg.host", "expansionFailed"⟩, err.message, Node.span a, []⟩])

/-- The expansion of a file is put together from what each attribute brings and reports: `brought`
and `reported` are asked about a declaration as it is written in the file. -/
structure Composed (r : Registry) (file : SourceFile) (e : Expansion)
    (brought : Decl → Attribute → List ExtensionDecl)
    (reported : Decl → Attribute → List Diagnostic) : Prop where
  contributes : ∀ m ∈ file.items, ∀ a ∈ runAttributes r m, ∃ g, r.get? a.name = some g ∧
    Contributes g m.decl a (brought m.decl a) (reported m.decl a)
  source_eq : e.source = String.join (file.items.map fun m ↦ Node.source (ownTokens r m) ++
    String.join ((runAttributes r m).flatMap fun a ↦ (brought m.decl a).map extensionText)) ++
      file.endOfFile.source
  diagnostics_eq : e.diagnostics = file.items.flatMap fun m ↦
    (runAttributes r m).flatMap (reported m.decl) ++ nestedDiagnostics r m.decl

theorem mem_runAttributes {r : Registry} {m : Member} {a : Attribute} :
    a ∈ runAttributes r m ↔
      m.decl.isGroup = true ∧ a ∈ m.decl.attributes ∧ r.contains a.name = true := by
  unfold runAttributes
  split
  next hgroup => simp [Decl.attached, hgroup]
  next hleaf => simp [hleaf]

theorem contributes_runAttribute {r : Registry} {g : Generator} {a : Attribute}
    (hg : r.get? a.name = some g) (d : Decl) :
    Contributes g d a (runAttribute r d a).1 (runAttribute r d a).2 := by
  unfold runAttribute
  rw [hg]
  dsimp only
  split
  next xs hxs => exact .generated (by rw [← hxs])
  next err herr => exact .failed (by rw [← herr])

theorem source_extensionItem (x : ExtensionDecl) :
    Node.source (extensionItem x) = extensionText x := by
  have hne : Node.tokens x ≠ [] := by
    obtain ⟨head, block⟩ := x
    simp [Node.tokens, ExtensionDecl.tokens]
  obtain ⟨t, ts, hts⟩ := List.exists_cons_of_ne_nil hne
  have htokens : Node.tokens (extensionItem x) = t.withLeading (Trivia.newlines 2) :: ts := by
    rw [tokens_extensionItem, Node.setLeading, x.hasShape.tokens_modifyToken, hts]
    rfl
  have htrailing : Node.trailing (extensionItem x) = Node.trailing x := by
    rw [Node.trailing, Node.trailing, htokens, hts]
    cases ts <;> rfl
  have hleading : Node.leading (extensionItem x) = Trivia.newlines 2 := by
    rw [Node.leading, htokens]
    rfl
  rw [Node.source_eq_trimmed, hleading, htrailing, Node.trimmed, htokens,
    Node.trimmedTokens_withLeading, ← hts]
  rfl

theorem tokens_expandItem (r : Registry) (m : Member) :
    Node.tokens (expandItem r m).1 =
      ownTokens r m ++ Node.tokens ((generated r m).map extensionItem) := by
  cases hgroup : m.decl.isGroup with
  | true => rw [tokens_expandItem_of_group r hgroup, ownTokens, if_pos hgroup]
  | false =>
    have hnone : generated r m = [] := by simp [generated, hgroup]
    rw [tokens_expandItem_of_leaf r hgroup, ownTokens, hgroup, hnone]
    exact (List.append_nil _).symm

theorem generated_eq (r : Registry) (m : Member) :
    generated r m = (runAttributes r m).flatMap fun a ↦ (runAttribute r m.decl a).1 := by
  unfold generated runAttributes
  split <;> rfl

theorem source_expandItem (r : Registry) (m : Member) :
    Node.source (expandItem r m).1 = Node.source (ownTokens r m) ++
      String.join ((runAttributes r m).flatMap fun a ↦
        (runAttribute r m.decl a).1.map extensionText) := by
  have hitems (xs : List ExtensionDecl) :
      Node.source (xs.map extensionItem) = String.join (xs.map extensionText) := by
    rw [Member.source_list, List.map_map]
    exact congrArg String.join (List.map_congr_left fun x _ ↦ source_extensionItem x)
  have happend : Node.source (expandItem r m).1 = Node.source (ownTokens r m) ++
      Node.source ((generated r m).map extensionItem) := by
    simp only [Node.source, tokens_expandItem, Node.tokens_tokenList, List.map_append,
      String.join_append]
  rw [happend, hitems, generated_eq, List.map_flatMap]

theorem diagnostics_expandItem (r : Registry) (m : Member) :
    (expandItem r m).2 = (runAttributes r m).flatMap (fun a ↦ (runAttribute r m.decl a).2) ++
      nestedDiagnostics r m.decl := by
  unfold expandItem runAttributes
  cases hgroup : m.decl.isGroup with
  | true =>
    rw [if_pos rfl, if_pos rfl]
    dsimp only
    rw [List.flatMap_map, nestedDiagnostics, Decl.nestedGroups_removeAttached hgroup,
      nestedDiagnostics]
  | false =>
    have hblock : m.decl.block? = none := by
      rw [Decl.isGroup] at hgroup
      exact Option.isSome_eq_false_iff.1 hgroup |> Option.isNone_iff_eq_none.1
    simp [nestedDiagnostics, Decl.nestedGroups_eq, hblock]

theorem composed_ofFile (r : Registry) (file : SourceFile) :
    Composed r file (ofFile r file) (fun d a ↦ (runAttribute r d a).1)
      fun d a ↦ (runAttribute r d a).2 where
  contributes := by
    intro m _ a ha
    obtain ⟨g, hg⟩ := Registry.exists_get?_of_contains (mem_runAttributes.1 ha).2.2
    exact ⟨g, hg, contributes_runAttribute hg m.decl⟩
  source_eq := by
    have hitems (ms : List Member) : Node.source ((ms.map (expandItem r)).flatMap Prod.fst) =
        String.join (ms.map fun m ↦ Node.source (expandItem r m).1) := by
      induction ms with
      | nil => rfl
      | cons m ms ih =>
        rw [List.map_cons, List.map_cons, String.join_cons, ← ih, List.flatMap_cons]
        simp only [Node.source, ← String.join_append, ← List.map_append]
        exact congrArg (fun ts ↦ String.join (ts.map Token.source)) List.flatMap_append
    rw [ofFile, SourceFile.source_eq, hitems]
    simp only [source_expandItem]
  diagnostics_eq := by
    have hfile : (ofFile r file).diagnostics = file.items.flatMap fun m ↦ (expandItem r m).2 := by
      simp only [ofFile, List.flatMap_map]
    rw [hfile]
    exact List.flatMap_congr fun m _ ↦ diagnostics_expandItem r m

/-! ### Items without attributes to run -/

theorem ownTokens_of_runAttributes_eq_nil {r : Registry} {m : Member}
    (h : runAttributes r m = []) : ownTokens r m = Node.tokens m := by
  unfold runAttributes at h
  unfold ownTokens
  split
  next hgroup =>
    rw [if_pos hgroup] at h
    have hnone : ∀ a ∈ m.decl.attributes, r.contains a.name = false := by
      intro a ha
      simpa using List.filter_eq_nil_iff.1 h a ha
    rw [Decl.stripped, Attribute.strip_of_none hnone, ← Decl.tokens_eq]
    cases m
    rfl
  next => rfl

theorem map_bare_ownTokens (r : Registry) (m : Member) :
    (ownTokens r m).map Token.bare = (keptTokens r m).map Token.bare := by
  unfold ownTokens keptTokens
  split
  · rw [List.map_append, List.map_append, Decl.stripped, Attribute.map_bare_strip,
      Decl.tokens_withAttributes]
  · rfl

theorem Composed.source_eq_of_forall_eq_nil {r : Registry} {file : SourceFile} {e : Expansion}
    {brought : Decl → Attribute → List ExtensionDecl}
    {reported : Decl → Attribute → List Diagnostic} (h : Composed r file e brought reported)
    (hnone : ∀ m ∈ file.items, runAttributes r m = []) : e.source = Node.source file := by
  rw [h.source_eq, file.source_eq, Member.source_list]
  congr 2
  refine List.map_congr_left fun m hm ↦ ?_
  rw [hnone m hm, ownTokens_of_runAttributes_eq_nil (hnone m hm), List.flatMap_nil]
  simp [Node.source]

end Expansion

open Expansion in
/-- A source that can be read expands under every registry.  The text is that of the items in their
order, each followed by the extensions that its attributes brought; an item with nothing to run is
the same text as in the source.  A generator that fails brings nothing and is reported after its own
reports.  Whatever generator stands in the place of another, failing or not, only the attributes of
its name bring and report something else. -/
theorem expandSource_composed {source : String} {file : SourceFile}
    (hparse : parseSource source = .ok file) (r : Registry) :
    ∃ e brought reported, expandSource source r = .ok e ∧ Composed r file e brought reported ∧
      source = String.join (file.items.map Node.source) ++ file.endOfFile.source ∧
      (∀ m ∈ file.items, runAttributes r m = [] → Node.source (ownTokens r m) = Node.source m) ∧
      (∀ m ∈ file.items, (ownTokens r m).map Token.bare = (keptTokens r m).map Token.bare) ∧
      ((∀ m ∈ file.items, runAttributes r m = []) → e.source = source) ∧
      ∀ g : Generator, r.contains g.name = true → (r.register g).get? g.name = some g ∧
        ∃ e' brought' reported', expandSource source (r.register g) = .ok e' ∧
          Composed (r.register g) file e' brought' reported' ∧
          ∀ m ∈ file.items, runAttributes (r.register g) m = runAttributes r m ∧
            ownTokens (r.register g) m = ownTokens r m ∧
            nestedDiagnostics (r.register g) m.decl = nestedDiagnostics r m.decl ∧
            ∀ a ∈ runAttributes r m, a.name ≠ g.name →
              brought' m.decl a = brought m.decl a ∧ reported' m.decl a = reported m.decl a := by
  have hsource := source_of_parseSource hparse
  have hexpand (r : Registry) : expandSource source r = .ok (ofFile r file) :=
    expandSource_eq_ok.2 ⟨file, hparse, rfl⟩
  refine ⟨ofFile r file, _, _, hexpand r, composed_ofFile r file, ?_, ?_, ?_, ?_, ?_⟩
  · rw [← hsource, ← Member.source_list, file.source_eq]
  · intro m _ hnone
    rw [ownTokens_of_runAttributes_eq_nil hnone, Node.source, Node.tokens_tokenList, Node.source]
  · intro m _
    exact map_bare_ownTokens r m
  · intro hnone
    rw [(composed_ofFile r file).source_eq_of_forall_eq_nil hnone, hsource]
  · intro g hg
    have hcontains := Registry.contains_register hg
    refine ⟨Registry.get?_register_self hg, ofFile (r.register g) file, _, _, hexpand _,
      composed_ofFile (r.register g) file, ?_⟩
    intro m _
    refine ⟨?_, ?_, ?_, ?_⟩
    · rw [runAttributes, hcontains, runAttributes]
    · rw [ownTokens, hcontains, ownTokens]
    · rw [nestedDiagnostics, hcontains, nestedDiagnostics]
    · intro a _ hne
      simp only [runAttribute, Registry.get?_register_of_ne hg hne, and_self]

/-- Two attributes on one enum, and a function that keeps its own. -/
def doublyAttachedSource : String :=
  "@AppEnumGenFixIt @AppEnumGen enum A \x7b \x7d // a\n@AppEnumGen func f() \x7b\x7d\n"

/-- A generator that reports something and fails. -/
def failingGenerator : Generator where
  name := "AppEnumGenFixIt"
  conformance := "P"
  run a _ _ := ⟨.error (.invalidIdentifier "1"), [Diagnostic.about a Catalog.notAnEnum]⟩

theorem expandSource_doublyAttachedSource :
    ∃ file e brought reported, parseSource doublyAttachedSource = .ok file ∧
      expandSource doublyAttachedSource ((Settings.registry {}).register failingGenerator) = .ok e ∧
      Expansion.Composed ((Settings.registry {}).register failingGenerator) file e brought
        reported := by
  have hread : (parseSource doublyAttachedSource).toOption.isSome = true := by decide +kernel
  cases hparse : parseSource doublyAttachedSource with
  | error err => simp [hparse, Except.toOption] at hread
  | ok file =>
    obtain ⟨_, _, _, -, -, -, -, -, -, hreplace⟩ :=
      expandSource_composed hparse (Settings.registry {})
    obtain ⟨-, e, brought, reported, hexpand, hcomposed, -⟩ :=
      hreplace failingGenerator (by rw [Settings.contains_registry]; decide)
    exact ⟨file, e, brought, reported, rfl, hexpand, hcomposed⟩

end EnumForge
