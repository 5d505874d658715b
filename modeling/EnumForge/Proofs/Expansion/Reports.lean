import EnumForge.Proofs.Expansion.Composition
import EnumForge.Tree.Path

/-!
# Reports and attributes

Every report of an expansion is about one attribute, and no two attributes stand in the same place.
Attributes are met in the order of the source: those of an item, then those of the groups inside it,
each group before the ones further in.  So the reports are in the order of the source, and those in
the place of an attribute are the ones about it.
-/

namespace EnumForge

namespace Text

/-- Both places are known, and the first starts before the second. -/
def StartsBefore (p q : Option Span) : Prop :=
  ∃ s t, p = some s ∧ q = some t ∧ s.start < t.start

theorem StartsBefore.ne {p q : Option Span} (h : StartsBefore p q) : p ≠ q := by
  obtain ⟨s, t, rfl, rfl, hlt⟩ := h
  intro heq
  rw [Option.some.inj heq] at hlt
  exact Nat.lt_irrefl _ hlt

end Text

open Text (Span StartsBefore)

/-! ### Groups inside a declaration -/

namespace Decl

/-- `g` stands in the block of a declaration, at any depth. -/
inductive Inside (g : Decl) : Decl → Prop where
  | member {d : Decl} {m : Member} (hm : m ∈ d.members) (hg : m.decl = g) : Inside g d
  | deeper {d : Decl} {m : Member} (hm : m ∈ d.members) (h : Inside g m.decl) : Inside g d

theorem sizeOf_lt_of_mem_members {d : Decl} {m : Member} (hm : m ∈ d.members) :
    sizeOf m.decl < sizeOf d := by
  have hdecl : sizeOf m.decl < sizeOf m := by
    obtain ⟨decl, semicolon⟩ := m
    simp
    omega
  have hlist (ms : List Member) (hms : m ∈ ms) : sizeOf m.decl < sizeOf ms :=
    Nat.lt_trans hdecl (List.sizeOf_lt_of_mem hms)
  rcases d with ⟨⟨head, ⟨left, ms, right⟩⟩⟩ | ⟨⟨head, ⟨left, ms, right⟩⟩⟩ |
    ⟨⟨head, ⟨left, ms, right⟩⟩⟩ | d | d | d
  · have hlt := hlist ms hm
    simp
    omega
  · have hlt := hlist ms hm
    simp
    omega
  · have hlt := hlist ms hm
    simp
    omega
  all_goals simp [members, block?] at hm

/-- What passes from the members of a declaration to the declaration holds at every depth. -/
theorem induction_members {P : Decl → Prop} (h : ∀ d, (∀ m ∈ d.members, P m.decl) → P d)
    (d : Decl) : P d := by
  apply h
  intro m hm
  have hlt := sizeOf_lt_of_mem_members hm
  exact induction_members h m.decl
termination_by sizeOf d

theorem nestedGroups_eq_flatMap (d : Decl) : d.nestedGroups = d.members.flatMap Member.groups := by
  have hlist (ms : List Member) : Member.listGroups ms = ms.flatMap Member.groups := by
    induction ms with
    | nil => rfl
    | cons m ms ih => rw [Member.listGroups, ih, List.flatMap_cons]
  rw [nestedGroups_eq, members]
  cases d.block? with
  | none => rfl
  | some block =>
    obtain ⟨left, ms, right⟩ := block
    exact hlist ms

end Decl

theorem Member.mem_groups {g : Decl} {m : Member} :
    g ∈ m.groups ↔ g.isGroup = true ∧ m.decl = g ∨ g ∈ m.decl.nestedGroups := by
  obtain ⟨decl, semicolon⟩ := m
  rw [groups, List.mem_append]
  cases hgroup : decl.isGroup <;> simp <;> grind

namespace Decl

theorem mem_nestedGroups {g : Decl} (d : Decl) :
    g ∈ d.nestedGroups ↔ g.isGroup = true ∧ g.Inside d := by
  induction d using induction_members with
  | h d ih =>
    rw [nestedGroups_eq_flatMap, List.mem_flatMap]
    constructor
    · rintro ⟨m, hm, hg⟩
      obtain ⟨hgroup, hdecl⟩ | hg := Member.mem_groups.1 hg
      · exact ⟨hgroup, .member hm hdecl⟩
      · obtain ⟨hgroup, hinside⟩ := (ih m hm).1 hg
        exact ⟨hgroup, .deeper hm hinside⟩
    · rintro ⟨hgroup, ⟨hm, hdecl⟩ | ⟨hm, hinside⟩⟩
      · exact ⟨_, hm, Member.mem_groups.2 (.inl ⟨hgroup, hdecl⟩)⟩
      · exact ⟨_, hm, Member.mem_groups.2 (.inr ((ih _ hm).2 ⟨hgroup, hinside⟩))⟩

theorem listTokens_members_sublist (d : Decl) :
    (Member.listTokens d.members).Sublist d.afterAttributes := by
  have hblock (ts : List Token) (b : MemberBlock) :
      (Member.listTokens b.members).Sublist (ts ++ b.tokens) := by
    obtain ⟨left, ms, right⟩ := b
    have hinfix : Member.listTokens ms <:+: ts ++ MemberBlock.tokens ⟨left, ms, right⟩ :=
      ⟨ts ++ [left], [right], by simp [MemberBlock.tokens]⟩
    exact hinfix.sublist
  rcases d with ⟨⟨head, block⟩⟩ | ⟨⟨head, block⟩⟩ | ⟨⟨head, block⟩⟩ | d | d | d
  · exact hblock _ block
  · exact hblock _ block
  · exact hblock _ block
  all_goals exact List.nil_sublist _

end Decl

theorem Attribute.tokens_append (as bs : List Attribute) :
    Node.tokens (as ++ bs) = Node.tokens as ++ Node.tokens bs := List.flatMap_append

theorem Attribute.atSign_sublist (as : List Attribute) :
    (as.map Attribute.atSign).Sublist (Node.tokens as) := by
  induction as with
  | nil => exact List.nil_sublist _
  | cons a as ih =>
    have hcons : Node.tokens (a :: as) = Node.tokens a ++ Node.tokens as := rfl
    rw [hcons]
    exact .cons_cons _ (ih.trans (List.sublist_append_right _ _))

namespace Member

theorem tokens_groups_sublist {m : Member}
    (h : (Node.tokens (m.decl.nestedGroups.flatMap Decl.attributes)).Sublist
      m.decl.afterAttributes) :
    (Node.tokens (m.groups.flatMap Decl.attributes)).Sublist (Node.tokens m) := by
  have hdecl := m.decl.tokens_eq
  obtain ⟨decl, semicolon⟩ := m
  have htokens : Node.tokens (⟨decl, semicolon⟩ : Member) =
      Node.tokens decl.attributes ++ decl.afterAttributes ++ Node.tokens semicolon :=
    congrArg (· ++ Node.tokens semicolon) hdecl
  rw [htokens, groups, List.flatMap_append, Attribute.tokens_append]
  refine List.Sublist.trans (List.Sublist.append ?_ h) (List.sublist_append_left _ _)
  split
  · simp
  · exact List.nil_sublist _

theorem tokens_flatMap_groups_sublist {ms : List Member}
    (h : ∀ m ∈ ms, (Node.tokens (m.groups.flatMap Decl.attributes)).Sublist (Node.tokens m)) :
    (Node.tokens ((ms.flatMap groups).flatMap Decl.attributes)).Sublist (Node.tokens ms) := by
  induction ms with
  | nil => exact List.nil_sublist _
  | cons m ms ih =>
    have htokens : Node.tokens (m :: ms) = Node.tokens m ++ Node.tokens ms := rfl
    rw [List.flatMap_cons, List.flatMap_append, Attribute.tokens_append, htokens]
    exact (h m List.mem_cons_self).append (ih fun n hn ↦ h n (List.mem_cons_of_mem m hn))

end Member

/-- The attributes of the groups inside a declaration are in the order of the tokens. -/
theorem Decl.tokens_nestedGroups_sublist (d : Decl) :
    (Node.tokens (d.nestedGroups.flatMap attributes)).Sublist d.afterAttributes := by
  induction d using induction_members with
  | h d ih =>
    have hmembers := Member.tokens_flatMap_groups_sublist fun m hm ↦
      Member.tokens_groups_sublist (ih m hm)
    rw [nestedGroups_eq_flatMap]
    rw [Member.tokens_list] at hmembers
    exact hmembers.trans d.listTokens_members_sublist

/-! ### Places of attributes -/

theorem Node.exists_span_of_pairwise {α : Type} [Node α] {a : α} {t : Token} {ts : List Token}
    (htokens : tokens a = t :: ts) (hspan : ∀ u ∈ t :: ts, u.span.isSome = true)
    (hpairwise : (t :: ts).Pairwise fun u v ↦ u.offset < v.offset) :
    ∃ s, span a = some s ∧ s.start = t.offset := by
  have hfold (ss : List Span) (s : Span) (hss : ∀ u ∈ ss, s.start ≤ u.start) :
      (ss.foldl Span.union s).start = s.start := by
    induction ss generalizing s with
    | nil => rfl
    | cons u ss ih =>
      have hunion : (s.union u).start = s.start := Nat.min_eq_left (hss u List.mem_cons_self)
      rw [List.foldl_cons, ih, hunion]
      intro v hv
      rw [hunion]
      exact hss v (List.mem_cons_of_mem u hv)
  obtain ⟨s, hs⟩ := Option.isSome_iff_exists.1 (hspan t List.mem_cons_self)
  have hoffset : t.offset = s.start := by rw [Token.offset, hs]; rfl
  refine ⟨_, by rw [span, htokens, List.filterMap_cons_some hs], ?_⟩
  rw [hfold, hoffset]
  intro u hu
  obtain ⟨v, hv, hvu⟩ := List.mem_filterMap.1 hu
  have hlt := (List.pairwise_cons.1 hpairwise).1 v hv
  rw [hoffset, Token.offset, hvu] at hlt
  exact Nat.le_of_lt hlt

/-- The attributes of all groups of a file. -/
def SourceFile.groupAttributes (file : SourceFile) : List Attribute :=
  (file.items.flatMap Member.groups).flatMap Decl.attributes

theorem SourceFile.mem_groupAttributes {file : SourceFile} {a : Attribute} :
    a ∈ file.groupAttributes ↔ ∃ m ∈ file.items, ∃ g : Decl, (g = m.decl ∨ g.Inside m.decl) ∧
      g.isGroup = true ∧ a ∈ g.attributes := by
  simp only [groupAttributes, List.mem_flatMap, Member.mem_groups, Decl.mem_nestedGroups]
  grind

/-- The attributes of groups have places, each starting where its first token does, and start one
after the other. -/
theorem SourceFile.span_groupAttributes {source : String} {file : SourceFile}
    (hparse : parseSource source = .ok file) :
    (∀ a ∈ file.groupAttributes, ∃ s, Node.span a = some s ∧ s.start = a.atSign.offset) ∧
      file.groupAttributes.Pairwise fun a b ↦ StartsBefore (Node.span a) (Node.span b) := by
  obtain ⟨stream, hstream, hread, -⟩ := parseSource_eq_ok.1 hparse
  have hitems := hread.tokens_append
  rw [List.append_nil, ← Member.tokens_list] at hitems
  have hplaced := (Token.placed_append.1 (TokenStream.placed_of_ofSource hstream)).1
  have hsublist : (Node.tokens file.groupAttributes).Sublist stream.tokens := by
    rw [← hitems]
    exact Member.tokens_flatMap_groups_sublist fun m _ ↦
      Member.tokens_groups_sublist m.decl.tokens_nestedGroups_sublist
  have hoffsets := (Token.pairwise_offset_of_placed hplaced fun t ht ↦
    TokenStream.text_ne_empty_of_ofSource hstream ht).sublist hsublist
  have hspan : ∀ a ∈ file.groupAttributes,
      ∃ s, Node.span a = some s ∧ s.start = a.atSign.offset := by
    intro a ha
    have hpart : (Node.tokens a).Sublist (Node.tokens file.groupAttributes) := by
      obtain ⟨before, after, hsplit⟩ := List.append_of_mem ha
      rw [hsplit, Attribute.tokens_append]
      exact (List.sublist_append_left _ _).trans (List.sublist_append_right _ _)
    refine Node.exists_span_of_pairwise rfl ?_ (hoffsets.sublist hpart)
    intro t ht
    obtain ⟨s, hs, -⟩ := Token.le_start_of_placed hplaced t ((hpart.trans hsublist).subset ht)
    exact Option.isSome_iff_exists.2 ⟨s, hs⟩
  refine ⟨hspan, ?_⟩
  have hstarts := hoffsets.sublist (Attribute.atSign_sublist file.groupAttributes)
  rw [List.pairwise_map] at hstarts
  refine hstarts.imp_of_mem ?_
  intro a b ha hb hlt
  obtain ⟨s, hs, hstart⟩ := hspan a ha
  obtain ⟨t, ht, hstart'⟩ := hspan b hb
  exact ⟨s, t, hs, ht, by omega⟩

/-! ### What is reported about an attribute -/

namespace Expansion

/-- The attributes of an item that name a generator, each with what is reported about it. -/
def itemReports (r : Registry) (m : Member) : List (Attribute × List Diagnostic) :=
  (runAttributes r m).map (fun a ↦ (a, (runAttribute r m.decl a).2)) ++
    m.decl.nestedGroups.flatMap fun g ↦
      (g.attached r.contains).map fun a ↦ (a, [Diagnostic.about a (nestedNotice a.name)])

def reports (r : Registry) (file : SourceFile) : List (Attribute × List Diagnostic) :=
  file.items.flatMap (itemReports r)

theorem diagnostics_ofFile (r : Registry) (file : SourceFile) :
    (ofFile r file).diagnostics = (reports r file).flatMap Prod.snd := by
  rw [(composed_ofFile r file).diagnostics_eq, reports, List.flatMap_assoc]
  refine List.flatMap_congr fun m _ ↦ ?_
  simp only [itemReports, nestedDiagnostics, List.flatMap_append, List.flatMap_map,
    List.flatMap_assoc]
  congr 1
  refine List.flatMap_congr fun g _ ↦ ?_
  exact (List.map_eq_flatMap ..)

theorem map_fst_itemReports (r : Registry) (m : Member) :
    (itemReports r m).map Prod.fst =
      (m.groups.flatMap Decl.attributes).filter fun a ↦ r.contains a.name := by
  have hnested : (m.decl.nestedGroups.flatMap fun g ↦ (g.attached r.contains).map fun a ↦
      (a, [Diagnostic.about a (nestedNotice a.name)])).map Prod.fst =
        (m.decl.nestedGroups.flatMap Decl.attributes).filter fun a ↦ r.contains a.name := by
    simp [List.map_flatMap, List.filter_flatMap, Function.comp_def, Decl.attached]
  rw [itemReports, List.map_append, hnested]
  obtain ⟨decl, semicolon⟩ := m
  rw [Member.groups, List.flatMap_append, List.filter_append]
  congr 1
  unfold runAttributes
  split <;> simp [Function.comp_def, Decl.attached]

theorem map_fst_reports (r : Registry) (file : SourceFile) :
    (reports r file).map Prod.fst = file.groupAttributes.filter fun a ↦ r.contains a.name := by
  rw [reports, SourceFile.groupAttributes, List.map_flatMap, List.flatMap_assoc,
    List.filter_flatMap]
  exact List.flatMap_congr fun m _ ↦ map_fst_itemReports r m

theorem mem_reports_of_top {r : Registry} {file : SourceFile} {m : Member}
    (hm : m ∈ file.items) (hgroup : m.decl.isGroup = true) {a : Attribute}
    (ha : a ∈ m.decl.attributes) (hname : r.contains a.name = true) :
    (a, (runAttribute r m.decl a).2) ∈ reports r file := by
  refine List.mem_flatMap.2 ⟨m, hm, List.mem_append_left _ (List.mem_map.2 ⟨a, ?_, rfl⟩)⟩
  exact mem_runAttributes.2 ⟨hgroup, ha, hname⟩

theorem mem_reports_of_nested {r : Registry} {file : SourceFile} {m : Member}
    (hm : m ∈ file.items) {g : Decl} (hg : g ∈ m.decl.nestedGroups) {a : Attribute}
    (ha : a ∈ g.attributes) (hname : r.contains a.name = true) :
    (a, [Diagnostic.about a (nestedNotice a.name)]) ∈ reports r file := by
  refine List.mem_flatMap.2 ⟨m, hm, List.mem_append_right _ (List.mem_flatMap.2 ⟨g, hg, ?_⟩)⟩
  exact List.mem_map.2 ⟨a, List.mem_filter.2 ⟨ha, hname⟩, rfl⟩

/-- The reports in the place of an attribute are those about it. -/
theorem filter_flatMap_reports {ps : List (Attribute × List Diagnostic)}
    (hspan : ∀ p ∈ ps, ∀ x ∈ p.2, x.span = Node.span p.1)
    (hdistinct : ps.Pairwise fun p q ↦ Node.span p.1 ≠ Node.span q.1)
    {p : Attribute × List Diagnostic} (hp : p ∈ ps) :
    (ps.flatMap Prod.snd).filter (fun x ↦ decide (x.span = Node.span p.1)) = p.2 := by
  induction ps with
  | nil => simp at hp
  | cons q ps ih =>
    obtain ⟨hq, hps⟩ := List.pairwise_cons.1 hdistinct
    have hspan' : ∀ p ∈ ps, ∀ x ∈ p.2, x.span = Node.span p.1 :=
      fun p hp ↦ hspan p (List.mem_cons_of_mem q hp)
    have hfirst := hspan q List.mem_cons_self
    rw [List.flatMap_cons, List.filter_append]
    obtain rfl | hmem := List.mem_cons.1 hp
    · have hrest : (ps.flatMap Prod.snd).filter (fun x ↦ decide (x.span = Node.span p.1)) = [] := by
        rw [List.filter_eq_nil_iff]
        intro x hx
        obtain ⟨p', hp', hx⟩ := List.mem_flatMap.1 hx
        simpa [hspan' p' hp' x hx] using (hq p' hp').symm
      rw [hrest, List.append_nil, List.filter_eq_self]
      intro x hx
      simpa using hfirst x hx
    · have hnone : q.2.filter (fun x ↦ decide (x.span = Node.span p.1)) = [] := by
        rw [List.filter_eq_nil_iff]
        intro x hx
        simpa [hfirst x hx] using hq p hmem
      rw [hnone, List.nil_append, ih hspan' hps hmem]

/-- An attribute on an item whose generator fails. -/
def Fails (r : Registry) (d : Decl) (a : Attribute) : Prop :=
  ∃ g err, r.get? a.name = some g ∧
    (g.run a d (requestedConformances d g.conformance)).result = .error err

end Expansion

namespace Settings

theorem get?_extension (s : Settings) : s.registry.get? ConformanceExtension.name =
    some (ConformanceExtension.generator s.conformance) := by
  rw [Registry.get?, s.entries_registry]
  rfl

theorem get?_replacement (s : Settings) : s.registry.get? EnumReplacement.name =
    some (EnumReplacement.generator s.conformance s.insertMissingInheritance) := by
  have hne : ConformanceExtension.name ≠ EnumReplacement.name := by decide
  rw [Registry.get?, s.entries_registry]
  simp [ConformanceExtension.generator, EnumReplacement.generator, hne]

end Settings

namespace Expansion

theorem contains_name_iff (s : Settings) (a : Attribute) : s.registry.contains a.name = true ↔
    a.name = ConformanceExtension.name ∨ a.name = EnumReplacement.name := by
  simp [s.contains_registry]

/-- One report for an attribute that proposes a replacement. -/
theorem exists_report_of_replacement (s : Settings) (d : Decl) {a : Attribute}
    (ha : a.name = EnumReplacement.name) :
    ∃ x, (runAttribute s.registry d a).2 = [x] ∧ x.span = Node.span a := by
  rw [runAttribute, ha, s.get?_replacement]
  simp only [EnumReplacement.run_generator, onEnum]
  cases hd : d.enum? with
  | none => exact ⟨_, rfl, rfl⟩
  | some e =>
    cases hnew : EnumReplacement.replacement s.conformance s.insertMissingInheritance a e with
    | error err => exact ⟨Diagnostic.about a (failedNotice err), by simp [hnew], rfl⟩
    | ok new =>
      exact ⟨(Diagnostic.about a Catalog.replaceEnum).withFixIt (Catalog.fixIt d (.enum new)),
        by simp [hnew], rfl⟩

/-- An attribute for an extension is reported where it is not on an enum or fails. -/
theorem reports_of_extension (s : Settings) (d : Decl) {a : Attribute}
    (ha : a.name = ConformanceExtension.name) :
    ((d.enum? = none ∨ Fails s.registry d a) →
      ∃ x, (runAttribute s.registry d a).2 = [x] ∧ x.span = Node.span a) ∧
    (¬(d.enum? = none ∨ Fails s.registry d a) → (runAttribute s.registry d a).2 = []) := by
  have hfails : Fails s.registry d a ↔ ∃ e err, d.enum? = some e ∧
      ConformanceExtension.build e s.conformance = .error err := by
    simp only [Fails, ha, s.get?_extension, Option.some.injEq]
    cases hd : d.enum? with
    | none => simp [ConformanceExtension.generator, onEnum, hd]
    | some e =>
      cases hbuild : ConformanceExtension.build e s.conformance with
      | error err => simp [ConformanceExtension.generator, onEnum, hd, hbuild, Except.map]
      | ok x => simp [ConformanceExtension.generator, onEnum, hd, hbuild, Except.map]
  rw [runAttribute, ha, s.get?_extension, hfails]
  simp only [ConformanceExtension.generator, onEnum]
  cases hd : d.enum? with
  | none => simp [Diagnostic.about]
  | some e =>
    cases hbuild : ConformanceExtension.build e s.conformance with
    | error err => simp [hbuild, Except.map, Diagnostic.about]
    | ok x => simp [hbuild, Except.map]

/-- Each report is about the attribute that it comes from, and there is at most one. -/
theorem reported_once (s : Settings) (file : SourceFile) {p : Attribute × List Diagnostic}
    (hp : p ∈ reports s.registry file) :
    p.2.length ≤ 1 ∧ ∀ x ∈ p.2, x.span = Node.span p.1 := by
  obtain ⟨m, hm, hp⟩ := List.mem_flatMap.1 hp
  obtain hp | hp := List.mem_append.1 hp
  · obtain ⟨a, ha, rfl⟩ := List.mem_map.1 hp
    have hone {xs : List Diagnostic} (h : ∃ x, xs = [x] ∧ x.span = Node.span a) :
        xs.length ≤ 1 ∧ ∀ x ∈ xs, x.span = Node.span a := by
      obtain ⟨x, rfl, hx⟩ := h
      simpa using hx
    obtain hname | hname := (contains_name_iff s a).1 (mem_runAttributes.1 ha).2.2
    · by_cases hreport : m.decl.enum? = none ∨ Fails s.registry m.decl a
      · exact hone ((reports_of_extension s m.decl hname).1 hreport)
      · simp [(reports_of_extension s m.decl hname).2 hreport]
    · exact hone (exists_report_of_replacement s m.decl hname)
  · obtain ⟨g, hg, hp⟩ := List.mem_flatMap.1 hp
    obtain ⟨a, ha, rfl⟩ := List.mem_map.1 hp
    simp [Diagnostic.about]

theorem pairwise_reports {source : String} {file : SourceFile}
    (hparse : parseSource source = .ok file) (r : Registry) :
    (reports r file).Pairwise fun p q ↦ StartsBefore (Node.span p.1) (Node.span q.1) := by
  have hpairwise := (SourceFile.span_groupAttributes hparse).2.filter fun a ↦ r.contains a.name
  rw [← map_fst_reports, List.pairwise_map] at hpairwise
  exact hpairwise

theorem filter_diagnostics {source : String} {file : SourceFile}
    (hparse : parseSource source = .ok file) (s : Settings) {a : Attribute}
    {xs : List Diagnostic} (hp : (a, xs) ∈ reports s.registry file) :
    (ofFile s.registry file).diagnostics.filter (fun x ↦ decide (x.span = Node.span a)) = xs := by
  rw [diagnostics_ofFile]
  exact filter_flatMap_reports (fun p hp ↦ (reported_once s file hp).2)
    ((pairwise_reports hparse s.registry).imp fun h ↦ h.ne) hp

end Expansion

open Expansion in
/-- Every diagnostic is in the place of an attribute that names one of the two generators, and they
are in the order of the source, so no attribute is reported twice.  An attribute on a nested group
has one warning.  On a top-level group, one that asks for a replacement is reported once, and one
that asks for an extension is reported once if the group is no enum or the expansion fails, and not
otherwise. -/
theorem reports_expandSource {source : String} {s : Settings} {e : Expansion}
    (h : expandSource source s.registry = .ok e) :
    ∃ file, parseSource source = .ok file ∧
      (∀ x ∈ e.diagnostics, ∃ m ∈ file.items, ∃ g : Decl, (g = m.decl ∨ g.Inside m.decl) ∧
        g.isGroup = true ∧ ∃ a ∈ g.attributes,
          (a.name = "AppEnumGen" ∨ a.name = "AppEnumGenFixIt") ∧
            ∃ p, Node.span a = some p ∧ x.span = some p) ∧
      e.diagnostics.Pairwise (fun x y ↦ StartsBefore x.span y.span) ∧
      (∀ m ∈ file.items, ∀ g : Decl, g.Inside m.decl → g.isGroup = true → ∀ a ∈ g.attributes,
        a.name = "AppEnumGen" ∨ a.name = "AppEnumGenFixIt" →
          ∃ x, e.diagnostics.filter (fun x ↦ decide (x.span = Node.span a)) = [x] ∧
            x.severity = .warning ∧ x.id = ⟨"aeg.host", "nestedAttachment"⟩) ∧
      (∀ m ∈ file.items, m.decl.isGroup = true → ∀ a ∈ m.decl.attributes,
        a.name = "AppEnumGenFixIt" →
          ∃ x, e.diagnostics.filter (fun x ↦ decide (x.span = Node.span a)) = [x]) ∧
      ∀ m ∈ file.items, m.decl.isGroup = true → ∀ a ∈ m.decl.attributes, a.name = "AppEnumGen" →
        ((m.decl.enum? = none ∨ Fails s.registry m.decl a) →
          ∃ x, e.diagnostics.filter (fun x ↦ decide (x.span = Node.span a)) = [x]) ∧
        (¬(m.decl.enum? = none ∨ Fails s.registry m.decl a) →
          e.diagnostics.filter (fun x ↦ decide (x.span = Node.span a)) = []) := by
  obtain ⟨file, hparse, rfl⟩ := expandSource_eq_ok.1 h
  refine ⟨file, hparse, ?_, ?_, ?_, ?_, ?_⟩
  · intro x hx
    rw [diagnostics_ofFile] at hx
    obtain ⟨⟨a, xs⟩, hp, hx⟩ := List.mem_flatMap.1 hx
    have ha : a ∈ (reports s.registry file).map Prod.fst := List.mem_map_of_mem hp
    rw [map_fst_reports, List.mem_filter] at ha
    obtain ⟨m, hm, g, hg, hgroup, hag⟩ := SourceFile.mem_groupAttributes.1 ha.1
    obtain ⟨p, hp', -⟩ := (SourceFile.span_groupAttributes hparse).1 a ha.1
    refine ⟨m, hm, g, hg, hgroup, a, hag, ?_, p, hp', ?_⟩
    · exact (contains_name_iff s a).1 ha.2
    · rw [← hp']
      exact (reported_once s file hp).2 x hx
  · rw [diagnostics_ofFile, List.pairwise_flatMap]
    refine ⟨?_, (pairwise_reports hparse s.registry).imp_of_mem ?_⟩
    · intro p hp
      have hle := (reported_once s file hp).1
      match p.2, hle with
      | [], _ => exact .nil
      | [x], _ => exact List.pairwise_singleton _ x
    · intro p q hp hq hlt x hx y hy
      rw [(reported_once s file hp).2 x hx, (reported_once s file hq).2 y hy]
      exact hlt
  · intro m hm g hinside hgroup a ha hname
    refine ⟨_, filter_diagnostics hparse s (mem_reports_of_nested hm ?_ ha ?_), rfl, rfl⟩
    · exact (Decl.mem_nestedGroups m.decl).2 ⟨hgroup, hinside⟩
    · exact (contains_name_iff s a).2 hname
  · intro m hm hgroup a ha hname
    obtain ⟨x, hx, -⟩ := exists_report_of_replacement s m.decl hname
    refine ⟨x, ?_⟩
    rw [← hx]
    have hmem := mem_reports_of_top hm hgroup ha ((contains_name_iff s a).2 (.inr hname))
    exact filter_diagnostics hparse s hmem
  · intro m hm hgroup a ha hname
    have hreports := reports_of_extension s m.decl hname
    have hmem := mem_reports_of_top hm hgroup ha ((contains_name_iff s a).2 (.inl hname))
    rw [filter_diagnostics hparse s hmem]
    refine ⟨fun hreport ↦ ?_, hreports.2⟩
    obtain ⟨x, hx, -⟩ := hreports.1 hreport
    exact ⟨x, hx⟩

/-- Attributes on a structure, on an enum inside it, and two on a top-level enum. -/
def scatteredSource : String :=
  "@AppEnumGen struct S \x7b @AppEnumGen enum A \x7b \x7d \x7d\n" ++
    "@AppEnumGen @AppEnumGenFixIt enum B \x7b \x7d"

theorem reports_scatteredSource :
    ∃ e, expandSource scatteredSource (Settings.registry {}) = .ok e ∧
      e.diagnostics.map (fun x ↦ (x.id.id, x.span.map Span.start)) =
        [("notAnEnum", some 0), ("nestedAttachment", some 23), ("replaceEnum", some 60)] ∧
      e.diagnostics.Pairwise fun x y ↦ StartsBefore x.span y.span := by
  have hreports : ((expandSource scatteredSource (Settings.registry {})).toOption.map fun e ↦
      e.diagnostics.map fun x ↦ (x.id.id, x.span.map Span.start)) =
        some [("notAnEnum", some 0), ("nestedAttachment", some 23), ("replaceEnum", some 60)] := by
    decide +kernel
  cases hexpand : expandSource scatteredSource (Settings.registry {}) with
  | error err => simp [hexpand, Except.toOption] at hreports
  | ok e =>
    obtain ⟨file, -, -, hpairwise, -⟩ := reports_expandSource hexpand
    refine ⟨e, rfl, ?_, hpairwise⟩
    simpa [hexpand, Except.toOption] using hreports

end EnumForge
