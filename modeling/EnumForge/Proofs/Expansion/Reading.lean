import EnumForge.Proofs.AppEnum.Fixing
import EnumForge.Proofs.AppEnum.Printing
import EnumForge.Proofs.Expansion.Removable
import EnumForge.Proofs.Grammar.Locating
import EnumForge.Proofs.Grammar.Opening

/-!
# Reading an expanded source

An expanded source is read as the tokens of its items, without the attributes that were run, each
group followed by the extensions generated for it.  All that is asked of the source is that these
attributes can be taken out of it; nothing is asked of the extensions, which start on a new line and
end with a brace.
-/

namespace EnumForge

open Token (StandsFor StartsSoft Spelled Ready InStep Replaces)

/-! ### What is put behind an item -/

namespace Expansion

/-- The extensions generated for an item. -/
def generated (r : Registry) (m : Member) : List ExtensionDecl :=
  if m.decl.isGroup then
    (m.decl.attached r.contains).flatMap fun a ↦ (runAttribute r m.decl a).1
  else []

theorem exists_build_of_runAttribute {s : Settings} {d : Decl} {a : Attribute} {x : ExtensionDecl}
    (h : x ∈ (runAttribute s.registry d a).1) :
    ∃ e, ConformanceExtension.build e s.conformance = .ok x := by
  unfold runAttribute at h
  split at h
  · simp at h
  next g hg =>
    have hmem := List.mem_of_find?_eq_some hg
    rw [s.entries_registry] at hmem
    dsimp only at h
    rcases List.mem_cons.1 hmem with rfl | hmem
    · cases hd : d.enum? with
      | none => simp [ConformanceExtension.generator, onEnum, hd] at h
      | some e =>
        cases hbuild : ConformanceExtension.build e s.conformance with
        | error err => simp [ConformanceExtension.generator, onEnum, hd, hbuild, Except.map] at h
        | ok y =>
          obtain rfl : x = y := by
            simpa [ConformanceExtension.generator, onEnum, hd, hbuild, Except.map] using h
          exact ⟨e, hbuild⟩
    · rw [List.mem_singleton.1 hmem] at h
      cases hd : d.enum? with
      | none => simp [EnumReplacement.generator, onEnum, hd] at h
      | some e =>
        cases hnew : EnumReplacement.replacement s.conformance s.insertMissingInheritance a e with
        | error err => simp [EnumReplacement.run_generator, onEnum, hd, hnew] at h
        | ok new => simp [EnumReplacement.run_generator, onEnum, hd, hnew] at h

theorem exists_build_of_generated {s : Settings} {m : Member} {x : ExtensionDecl}
    (h : x ∈ generated s.registry m) : ∃ e, ConformanceExtension.build e s.conformance = .ok x := by
  unfold generated at h
  split at h
  · obtain ⟨a, -, ha⟩ := List.mem_flatMap.1 h
    exact exists_build_of_runAttribute ha
  · simp at h

theorem tokens_extensionItem (x : ExtensionDecl) :
    Node.tokens (extensionItem x) = Node.tokens (Node.setLeading (Trivia.newlines 2) x) :=
  List.append_nil _

/-- Generated extensions are read back before whatever follows them. -/
theorem ready_extensionItems {xs : List ExtensionDecl} {conformance : String}
    (hxs : ∀ x ∈ xs, ∃ e, ConformanceExtension.build e conformance = .ok x) {ns : List Token}
    (hn : Ready ns) : Ready (Node.tokens (xs.map extensionItem) ++ ns) := by
  induction xs with
  | nil => exact hn
  | cons x xs ih =>
    have hcons : Node.tokens ((x :: xs).map extensionItem) ++ ns =
        Node.tokens (extensionItem x) ++ (Node.tokens (xs.map extensionItem) ++ ns) :=
      List.append_assoc _ _ _
    obtain ⟨e, he⟩ := hxs x List.mem_cons_self
    rw [hcons, tokens_extensionItem]
    exact ConformanceExtension.ready_build he (Trivia.fresh_newlines 1)
      (ih fun y hy ↦ hxs y (List.mem_cons_of_mem x hy))

/-- An extension starts after a blank line. -/
theorem exists_tokens_extensionItem {e : NominalDecl} {conformance : String} {x : ExtensionDecl}
    (h : ConformanceExtension.build e conformance = .ok x) :
    ∃ t ts, Node.tokens (extensionItem x) = t :: ts ∧ t.leading = Trivia.newlines 2 := by
  obtain ⟨ms, -, -, -, rfl⟩ := ConformanceExtension.build_eq_ok.1 h
  rw [tokens_extensionItem, Node.setLeading, (ExtensionDecl.hasShape _).tokens_modifyToken]
  exact ⟨_, _, rfl, rfl⟩

/-! ### Items -/

theorem tokens_expandItem_of_group (r : Registry) {m : Member} (hgroup : m.decl.isGroup = true) :
    Node.tokens (expandItem r m).1 = (m.decl.stripped r.contains ++ Node.tokens m.semicolon) ++
      Node.tokens ((generated r m).map extensionItem) := by
  have hitems : (expandItem r m).1 = { m with decl := m.decl.removeAttached r.contains } ::
      (generated r m).map extensionItem := by
    simp only [expandItem, generated, hgroup, if_true, List.flatMap_map]
  rw [hitems, ← Decl.tokens_removeAttached]
  rfl

theorem tokens_expandItem_of_leaf (r : Registry) {m : Member} (hleaf : m.decl.isGroup = false) :
    Node.tokens (expandItem r m).1 = Node.tokens m := by
  have hitems : (expandItem r m).1 = [m] := by
    simp [expandItem, hleaf]
  rw [hitems]
  exact List.append_nil _

/-- Generated extensions may be put behind the last token of a group, and what is replaced behind
them is not behind that token any more. -/
theorem inStep_extensionItems {xs : List ExtensionDecl} {conformance : String}
    (hxs : ∀ x ∈ xs, ∃ e, ConformanceExtension.build e conformance = .ok x) {z : Token}
    (hz : z.kind = .rightBrace ∨ z.kind = .semicolon) {before after : List Token}
    (h : Replaces (if xs.isEmpty then some z else none) before after)
    (hspelled : Spelled (z :: before)) :
    InStep (z :: before) (z :: (Node.tokens (xs.map extensionItem) ++ after)) := by
  cases xs with
  | nil => exact h.keeps z rfl hspelled
  | cons x xs =>
    obtain ⟨o, os, rfl⟩ : ∃ o os, before = o :: os := by
      cases h.standsFor <;> exact ⟨_, _, rfl⟩
    have hready := ready_extensionItems hxs (h.standsFor.ready (.of_spelled hspelled))
    obtain ⟨e, he⟩ := hxs x List.mem_cons_self
    obtain ⟨t, ts, htokens, hleading⟩ := exists_tokens_extensionItem he
    have hcons : Node.tokens ((x :: xs).map extensionItem) ++ after =
        t :: (ts ++ Node.tokens (xs.map extensionItem) ++ after) := by
      have hsplit : Node.tokens ((x :: xs).map extensionItem) =
          Node.tokens (extensionItem x) ++ Node.tokens (xs.map extensionItem) := rfl
      rw [hsplit, htokens]
      rfl
    rw [hcons] at hready ⊢
    exact .insert hspelled hz hready (by rw [hleading]; decide)

/-- The token that what follows an item comes to stand behind: its last one, unless extensions are
put in between. -/
def lastToken? (r : Registry) (m : Member) : Option Token :=
  if (generated r m).isEmpty then (Node.tokens m).getLast? else none

/-- The attributes that are run can be taken out of the items, where `p` is the token before all of
them, if there is one. -/
def Removable (r : Registry) : Option Token → List Member → Prop
  | _, [] => True
  | p, m :: ms =>
    (m.decl.isGroup = true →
      Attribute.Removable r.contains p m.decl.attributes m.decl.afterAttributes) ∧
        Removable r (lastToken? r m) ms

instance decidableRemovable (r : Registry) (p : Option Token) (ms : List Member) :
    Decidable (Removable r p ms) :=
  match ms with
  | [] => isTrue trivial
  | m :: ms =>
    have := decidableRemovable r (lastToken? r m) ms
    inferInstanceAs (Decidable (_ ∧ _))

/-- How the items of a file are made of tokens. -/
structure Shaped (m : Member) : Prop where
  tokens_ne : Node.tokens m ≠ []
  group : m.decl.isGroup = true → m.decl.Headed ∧ ∃ ts z, Node.tokens m = ts ++ [z] ∧
    (z.kind = .rightBrace ∨ z.kind = .semicolon)

/-- Generated extensions may be put behind the part `t :: ts` of a group that is not its attributes,
which ends as the group does. -/
theorem inStep_behindBody {s : Settings} {m : Member} {us ts : List Token} {t z : Token}
    (hlast : Node.tokens m = us ++ [z]) (hz : z.kind = .rightBrace ∨ z.kind = .semicolon)
    (hm : Node.tokens m = Node.tokens m.decl.attributes ++ t :: ts) {before after : List Token}
    (h : Replaces (lastToken? s.registry m) before after) (hspelled : Spelled (t :: ts ++ before)) :
    InStep (t :: ts ++ before)
      (t :: ts ++ (Node.tokens ((generated s.registry m).map extensionItem) ++ after)) := by
  obtain ⟨vs, hvs⟩ : ∃ vs, t :: ts = vs ++ [z] := by
    have hend := congrArg List.getLast? (hm.symm.trans hlast)
    rw [List.getLast?_concat, List.getLast?_append, List.getLast?_cons, Option.some_or] at hend
    exact List.getLast?_eq_some_iff.1 (List.getLast?_cons.trans hend)
  have hz? : lastToken? s.registry m =
      if (generated s.registry m).isEmpty then some z else none := by
    rw [lastToken?, hlast, List.getLast?_concat]
  rw [hvs, List.append_assoc] at hspelled ⊢
  rw [List.append_assoc]
  have hstep := inStep_extensionItems (fun x hx ↦ exists_build_of_generated hx) hz (hz? ▸ h)
    (Token.spelled_of_append hspelled (by simp))
  exact hstep.append rfl hspelled

theorem startsSoft_atSign {as : List Attribute} (hkinds : ∀ a ∈ as, a.atSign.kind = .atSign)
    {ts : List Token} (hspelled : Spelled (Node.tokens as ++ ts)) :
    ∀ a ∈ as, a.atSign.StartsSoft := by
  intro a ha
  have hmem : a.atSign ∈ Node.tokens as := List.mem_flatMap.2 ⟨a, ha, List.mem_cons_self⟩
  have hpunctuation := Token.isPunctuation_of_mem hspelled (List.mem_append_left _ hmem)
    (by simp [hkinds a ha, Token.punctuationKinds])
  exact hpunctuation.startsSoft (hkinds a ha)

/-- The tokens of an item may give way to those of the items it becomes. -/
theorem replaces_expandItem {s : Settings} {m : Member} (hm : Shaped m) {p : Option Token}
    (hremove : m.decl.isGroup = true →
      Attribute.Removable s.registry.contains p m.decl.attributes m.decl.afterAttributes)
    {before after : List Token} (h : Replaces (lastToken? s.registry m) before after)
    (hspelled : Spelled (Node.tokens m ++ before)) :
    Replaces p (Node.tokens m ++ before) (Node.tokens (expandItem s.registry m).1 ++ after) := by
  cases hgroup : m.decl.isGroup with
  | false =>
    have hlast : lastToken? s.registry m = (Node.tokens m).getLast? := by
      simp [lastToken?, generated, hgroup]
    rw [hlast] at h
    have hstep := h.append hm.tokens_ne hspelled
    obtain ⟨t, ts, hts⟩ := List.exists_cons_of_ne_nil hm.tokens_ne
    rw [tokens_expandItem_of_leaf _ hgroup]
    rw [hts] at hstep ⊢
    exact hstep.replaces rfl p
  | true =>
    obtain ⟨⟨hkinds, t, ts, hafter, ht⟩, us, z, hlast, hz⟩ := hm.group hgroup
    have hm : Node.tokens m =
        Node.tokens m.decl.attributes ++ t :: (ts ++ Node.tokens m.semicolon) := by
      have htokens : Node.tokens m = Node.tokens m.decl ++ Node.tokens m.semicolon := by
        cases m
        rfl
      rw [htokens, Decl.tokens_eq, hafter, List.append_assoc]
      rfl
    have hnew : Node.tokens (expandItem s.registry m).1 ++ after =
        Attribute.strip s.registry.contains m.decl.attributes
          (t :: (ts ++ Node.tokens m.semicolon ++
            (Node.tokens ((generated s.registry m).map extensionItem) ++ after))) := by
      rw [tokens_expandItem_of_group _ hgroup, Decl.stripped, hafter,
        Attribute.strip_append_right _ (by simp), List.append_assoc,
        Attribute.strip_append_right _ (by simp)]
      rfl
    rw [hnew]
    rw [hm, List.append_assoc] at hspelled ⊢
    have hbody := inStep_behindBody hlast hz hm h (Token.spelled_of_append hspelled (by simp))
    refine Attribute.replaces_strip (startsSoft_atSign hkinds hspelled) ht hbody hspelled
      ((hremove hgroup).congr ?_)
    rw [hafter]
    rfl

/-- The items that a file becomes. -/
def items (r : Registry) (file : SourceFile) : List Member :=
  file.items.flatMap fun m ↦ (expandItem r m).1

theorem replaces_items {s : Settings} {ms : List Member} (hms : ∀ m ∈ ms, Shaped m)
    {p : Option Token} (hremove : Removable s.registry p ms) {e : Token}
    (hspelled : Spelled (Node.tokens ms ++ [e])) :
    Replaces p (Node.tokens ms ++ [e])
      (Node.tokens (ms.flatMap fun m ↦ (expandItem s.registry m).1) ++ [e]) := by
  induction ms generalizing p with
  | nil => exact (InStep.refl hspelled).replaces rfl p
  | cons m ms ih =>
    have hold : Node.tokens (m :: ms) ++ [e] = Node.tokens m ++ (Node.tokens ms ++ [e]) :=
      List.append_assoc _ _ _
    have hnew : Node.tokens ((m :: ms).flatMap fun m ↦ (expandItem s.registry m).1) ++ [e] =
        Node.tokens (expandItem s.registry m).1 ++
          (Node.tokens (ms.flatMap fun m ↦ (expandItem s.registry m).1) ++ [e]) := by
      rw [List.flatMap_cons, ← List.append_assoc]
      exact congrArg (· ++ [e]) List.flatMap_append
    rw [hold] at hspelled ⊢
    rw [hnew]
    have hrest := ih (fun n hn ↦ hms n (List.mem_cons_of_mem m hn)) hremove.2
      (Token.spelled_of_append hspelled (by simp))
    exact replaces_expandItem (hms m List.mem_cons_self) hremove.1 hrest hspelled

theorem shaped_of_itemsRead {ts last : List Token} {ms : List Member}
    (h : Grammar.ItemsRead ts ms last) {m : Member} (hm : m ∈ ms) : Shaped m where
  tokens_ne := by
    obtain ⟨i, hi⟩ := List.mem_iff_getElem?.1 hm
    have hfind : Member.find? [i] ms = some m := by simp [Member.find?, hi]
    have hdecl := h.tokens_ne_nil hfind
    obtain ⟨d, semicolon⟩ := m
    exact List.append_ne_nil_of_left_ne_nil hdecl _
  group := h.of_isGroup hm

/-- The tokens that an item keeps: a group loses the attributes that are run. -/
def keptTokens (r : Registry) (m : Member) : List Token :=
  if m.decl.isGroup then
    Node.tokens (m.decl.withAttributes (m.decl.attributes.filter fun a ↦ !r.contains a.name)) ++
      Node.tokens m.semicolon
  else Node.tokens m

theorem map_bare_extensionItems (xs : List ExtensionDecl) :
    (Node.tokens (xs.map extensionItem)).map Token.bare = (Node.tokens xs).map Token.bare := by
  induction xs with
  | nil => rfl
  | cons x xs ih =>
    have hcons : Node.tokens ((x :: xs).map extensionItem) =
        Node.tokens (extensionItem x) ++ Node.tokens (xs.map extensionItem) := rfl
    have hcons' : Node.tokens (x :: xs) = Node.tokens x ++ Node.tokens xs := rfl
    have hfirst : (Node.tokens (extensionItem x)).map Token.bare =
        (Node.tokens x).map Token.bare := by
      rw [tokens_extensionItem, Node.setLeading, x.hasShape.tokens_modifyToken]
      cases Node.tokens x <;> rfl
    rw [hcons, hcons', List.map_append, List.map_append, hfirst, ih]

theorem map_bare_expandItem (r : Registry) (m : Member) :
    (Node.tokens (expandItem r m).1).map Token.bare =
      (keptTokens r m ++ Node.tokens (generated r m)).map Token.bare := by
  cases hgroup : m.decl.isGroup with
  | false =>
    have hkept : keptTokens r m ++ Node.tokens (generated r m) = Node.tokens m := by
      simp only [keptTokens, generated, hgroup]
      exact List.append_nil _
    rw [tokens_expandItem_of_leaf r hgroup, hkept]
  | true =>
    have hkept : keptTokens r m =
        Node.tokens (m.decl.withAttributes
          (m.decl.attributes.filter fun a ↦ !r.contains a.name)) ++ Node.tokens m.semicolon := by
      simp only [keptTokens, hgroup, if_true]
    rw [tokens_expandItem_of_group r hgroup, hkept, List.map_append, List.map_append,
      List.map_append, List.map_append, map_bare_extensionItems, Decl.stripped,
      Attribute.map_bare_strip, Decl.tokens_withAttributes]

theorem map_bare_items (r : Registry) (file : SourceFile) :
    (Node.tokens (items r file)).map Token.bare =
      (file.items.flatMap fun m ↦
        keptTokens r m ++ Node.tokens (generated r m)).map Token.bare := by
  have hflat : Node.tokens (items r file) =
      file.items.flatMap fun m ↦ Node.tokens (expandItem r m).1 := List.flatMap_assoc
  rw [hflat, List.map_flatMap, List.map_flatMap]
  exact List.flatMap_congr fun m _ ↦ map_bare_expandItem r m

end Expansion

/-- An expanded source is read again if the attributes that were run can be taken out of the source.
Item by item, its tokens are those of the item, without these attributes, and then those of the
extensions generated for it. -/
theorem tokenize_expandSource {source : String} {s : Settings} {file : SourceFile} {e : Expansion}
    (hparse : parseSource source = .ok file) (he : expandSource source s.registry = .ok e)
    (hremove : Expansion.Removable s.registry none file.items) :
    ∃ ts, tokenize e.source = .ok ts ∧
      ts.map Token.bare =
        (file.items.flatMap fun m ↦ Expansion.keptTokens s.registry m ++
          Node.tokens (Expansion.generated s.registry m)).map Token.bare ++
            [Token.plain .endOfFile ""] := by
  obtain ⟨file', hparse', rfl⟩ := expandSource_eq_ok.1 he
  obtain rfl : file = file' := by simpa [hparse] using hparse'
  obtain ⟨stream, hstream, hread, heof⟩ := parseSource_eq_ok.1 hparse
  obtain ⟨b, bs, htokens, hspelled, hstart⟩ := TokenStream.spelled_of_ofSource hstream
  have hfile : Node.tokens file.items ++ [file.endOfFile] = b :: bs := by
    rw [Member.tokens_list, ← htokens, TokenStream.toList, ← hread.tokens_append, heof,
      List.append_nil]
  rw [← hfile] at hspelled
  have hend := Token.spelled_of_append hspelled (List.cons_ne_nil _ _)
  have hstands := (Expansion.replaces_items (fun m hm ↦ Expansion.shaped_of_itemsRead hread hm)
    hremove hspelled).standsFor
  have hbare (ts : List Token) : (ts.map Token.detached).map Token.bare = ts.map Token.bare := by
    rw [List.map_map]
    rfl
  have heofBare : file.endOfFile.bare = Token.plain .endOfFile "" := by
    rw [Token.bare, hend.1, hend.2.1]
  cases hnew : Node.tokens (Expansion.items s.registry file) ++ [file.endOfFile] with
  | nil => simp at hnew
  | cons c cs =>
    have hsource : (Expansion.ofFile s.registry file).source =
        String.ofList (Token.listChars (c :: cs)) := by
      have hlist : (Expansion.items s.registry file) =
          (file.items.map (Expansion.expandItem s.registry)).flatMap Prod.fst := by
        rw [List.flatMap_map]
        rfl
      rw [← String.toList_inj, String.toList_ofList, ← hnew, hlist]
      exact Node.toList_source _
    unfold Expansion.items at hnew
    rw [hnew, hfile] at hstands
    obtain ⟨stream', hstream', hmap⟩ :=
      TokenStream.ofSource_of_spelled hstands.spelled (hstands.startsFile hstart)
    refine ⟨stream'.toList, tokenize_eq_ok.2 ⟨stream', hsource ▸ hstream', rfl⟩, ?_⟩
    rw [← hbare, hmap, hbare, ← hnew, List.map_append, List.map_singleton, heofBare,
      ← Expansion.map_bare_items]
    rfl

/-- Attributes on lines of their own, beside others, behind a brace and on a function, with comments
around. -/
def layeredSource : String :=
  "import Foundation // a\n@objc @AppEnumGen // b\n" ++
    "public enum A: C \x7b case x, \x60y\x60 \x7d // c\n" ++
    "@AppEnumGen\n/* d */ struct S \x7b\x7d; @AppEnumGen func f() \x7b\x7d\n" ++
    "@AppEnumGen enum B \x7b\x7d"

theorem tokenize_layeredSource :
    ∃ file e, parseSource layeredSource = .ok file ∧
      expandSource layeredSource (Settings.registry {}) = .ok e ∧
      Expansion.Removable (Settings.registry {}) none file.items ∧
      ∃ ts, tokenize e.source = .ok ts ∧
        ts.map Token.bare =
          (file.items.flatMap fun m ↦ Expansion.keptTokens (Settings.registry {}) m ++
            Node.tokens (Expansion.generated (Settings.registry {}) m)).map Token.bare ++
              [Token.plain .endOfFile ""] := by
  have happly : ((parseSource layeredSource).toOption.any fun file ↦
      decide (Expansion.Removable (Settings.registry {}) none file.items)) = true := by
    decide +kernel
  cases hparse : parseSource layeredSource with
  | error err => simp [hparse, Except.toOption] at happly
  | ok file =>
    have hexpand : expandSource layeredSource (Settings.registry {}) =
        .ok (Expansion.ofFile (Settings.registry {}) file) :=
      expandSource_eq_ok.2 ⟨file, hparse, rfl⟩
    have hremove : Expansion.Removable (Settings.registry {}) none file.items := by
      simpa [hparse, Except.toOption] using happly
    exact ⟨file, _, rfl, hexpand, hremove, tokenize_expandSource hparse hexpand hremove⟩

/-- An attribute that holds the only line break between two words. -/
def gluedSource : String := "import Foundation\n@AppEnumGen enum A \x7b case a \x7d"

/-- An attribute on a declaration that is no group. -/
def ungroupedSource : String := "@AppEnumGen func f() \x7b \x7d"

/-- Whether an expanded source is read as its items without any attribute of a generator, each with
its extensions behind it. -/
def Expansion.readsStripped (r : Registry) (file : SourceFile) : Bool :=
  match tokenize (ofFile r file).source with
  | .error _ => false
  | .ok ts =>
    ts.map Token.bare == (file.items.flatMap fun m ↦
      Node.tokens (m.decl.withAttributes (m.decl.attributes.filter fun a ↦ !r.contains a.name)) ++
        Node.tokens m.semicolon ++ Node.tokens (generated r m)).map Token.bare ++
          [Token.plain .endOfFile ""]

theorem Expansion.exists_not_readsStripped {source : String} {r : Registry}
    (h : ((parseSource source).toOption.any fun file ↦ !readsStripped r file) = true) :
    ∃ file, parseSource source = .ok file ∧ readsStripped r file = false := by
  cases hparse : parseSource source with
  | error err => simp [hparse, Except.toOption] at h
  | ok file => exact ⟨file, rfl, by simpa [hparse, Except.toOption] using h⟩

theorem not_readsStripped_glued_ungrouped :
    (∃ file, parseSource gluedSource = .ok file ∧
      Expansion.readsStripped (Settings.registry {}) file = false) ∧
    ∃ file, parseSource ungroupedSource = .ok file ∧
      Expansion.readsStripped (Settings.registry {}) file = false := by
  refine ⟨Expansion.exists_not_readsStripped ?_, Expansion.exists_not_readsStripped ?_⟩
  · decide +kernel
  · decide +kernel

end EnumForge
