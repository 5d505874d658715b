import EnumForge.AppEnum.Settings
import EnumForge.Expansion
import EnumForge.Proofs.AppEnum.Building
import EnumForge.Proofs.Tree.Walk

/-!
# Which replacements are proposed

The only fix-its of an expansion come from the replacement attributes of top-level enums: one for
each such attribute, if a replacement can be built at all.  Whether it can be built depends on the
enum and the settings but not on the attribute, since making the attribute a comment changes neither
the entries of the inheritance clause nor the cases.
-/

namespace EnumForge

/-! ### What an edit of trivia leaves alone -/

namespace TypeRef

theorem memberPath?_map_bare (ts : List Token) :
    memberPath? (ts.map Token.bare) = (memberPath? ts).map Token.bare := by
  fun_induction memberPath? ts with
  | case1 => rfl
  | case2 t h => simp [memberPath?, Token.bare, Token.plain, h]
  | case3 t h => simp [memberPath?, Token.bare, Token.plain, h]
  | case4 t p ts h ih =>
    rw [← ih]
    simp [memberPath?, Token.bare, Token.plain, h]
  | case5 t p ts h =>
    have hbare : ¬(t.bare.kind = .identifier ∧ p.bare.kind = .period) := h
    rw [List.map_cons, List.map_cons, memberPath?, if_neg hbare]
    rfl

theorem nominalName?_mapTokens_bare (t : TypeRef) :
    (Node.mapTokens Token.bare t).nominalName? = t.nominalName? := by
  cases t with
  | identifier name => rfl
  | dictionary => rfl
  | raw ts =>
    have hmap : Node.mapTokens Token.bare (raw ts) = raw (ts.map Token.bare) :=
      congrArg raw (Node.mapTokens_list Token.bare ts)
    rw [hmap, nominalName?, memberPath?_map_bare, Option.map_map]
    rfl

end TypeRef

theorem InheritanceClause.contains_mapTokens_bare (c : InheritanceClause) (name : String) :
    (Node.mapTokens Token.bare c).contains name = c.contains name := by
  have hmap : (Node.mapTokens Token.bare c).types = c.types.map (Node.mapTokens Token.bare) :=
    Node.mapTokens_list Token.bare c.types
  have htype (i : InheritedType) :
      (Node.mapTokens Token.bare i).type = Node.mapTokens Token.bare i.type := rfl
  simp only [contains, hmap, List.any_map, Function.comp_def, htype,
    TypeRef.nominalName?_mapTokens_bare]

/-! ### When a replacement can be built -/

namespace EnumReplacement

/-- Disabling an attribute changes no more than attributes and trivia. -/
theorem exists_mapTokens_disable (a : Attribute) (d : NominalDecl) : ∃ attributes,
    Node.mapTokens Token.bare (disable a d) =
      Node.mapTokens Token.bare { d with head.preamble.attributes := attributes } := by
  obtain ⟨head, block⟩ := d
  have hedit (indent : String) (t : Token) :
      (if t.startsLine then t else t.withLeading (Trivia.newlineIndent indent)).bare = t.bare := by
    split <;> rfl
  unfold disable
  dsimp only
  split
  next => exact ⟨head.preamble.attributes, rfl⟩
  next => exact ⟨_, (NominalDecl.hasShape _).mapTokens_modifyToken _ (hedit _)⟩

theorem mapTokens_inheritance_disable (a : Attribute) (d : NominalDecl) :
    Node.mapTokens Token.bare (disable a d).head.inheritance =
      Node.mapTokens Token.bare d.head.inheritance := by
  have hpart (d : NominalDecl) : Node.mapTokens Token.bare d.head.inheritance =
      (Node.mapTokens Token.bare d).head.inheritance := by
    obtain ⟨head, block⟩ := d
    rfl
  obtain ⟨attributes, hmap⟩ := exists_mapTokens_disable a d
  rw [hpart, hmap]
  rfl

/-- The entries that the clause is searched for are those of the enum as it was. -/
theorem map_contains_disable (a : Attribute) (d : NominalDecl) (name : String) :
    (disable a d).head.inheritance.map (·.contains name) =
      d.head.inheritance.map (·.contains name) := by
  have hbare := mapTokens_inheritance_disable a d
  have hmap (o : Option InheritanceClause) :
      o.map (·.contains name) = (Node.mapTokens Token.bare o).map (·.contains name) := by
    cases o with
    | none => rfl
    | some c => exact congrArg some (c.contains_mapTokens_bare name).symm
  rw [hmap, hbare, ← hmap]

theorem isOk_conforming (conformance : String) (insertMissing : Bool) (h : NominalHead) :
    (conforming conformance insertMissing h).isOk =
      (((h.inheritance.map (·.contains conformance)).getD !insertMissing) ||
        Text.isIdentifier conformance) := by
  unfold conforming
  cases h.inheritance with
  | none =>
    cases insertMissing <;> cases hid : Text.isIdentifier conformance <;>
      simp [Token.identifier, hid, Except.isOk, Except.toBool, bind, Except.bind, pure, Except.pure]
  | some clause =>
    cases hc : clause.contains conformance <;> cases hid : Text.isIdentifier conformance <;>
      simp [Token.identifier, hc, hid, Except.isOk, Except.toBool, bind, Except.bind, pure,
        Except.pure]

theorem isOk_rebuild (d : NominalDecl) (block : MemberBlock) :
    (rebuild d block).isOk = (Display.membersOf d (memberIndent d)).isOk := by
  unfold rebuild
  dsimp only
  cases Display.membersOf d (memberIndent d) <;> rfl

/-- Whether a replacement can be built does not depend on the attribute that asks for it. -/
theorem isOk_replacement (conformance : String) (insertMissing : Bool) (a b : Attribute)
    (d : NominalDecl) : (replacement conformance insertMissing a d).isOk =
      (replacement conformance insertMissing b d).isOk := by
  have hsplit (a : Attribute) : (replacement conformance insertMissing a d).isOk =
      ((conforming conformance insertMissing (disable a d).head).isOk &&
        (rebuild d (disable a d).block).isOk) := by
    unfold replacement
    dsimp only
    cases conforming conformance insertMissing (disable a d).head with
    | error e => rfl
    | ok head => cases rebuild d (disable a d).block <;> rfl
  simp only [hsplit, isOk_conforming, isOk_rebuild, map_contains_disable]

end EnumReplacement

/-! ### The fix-its of an expansion -/

namespace Settings

/-- The replacement that an attribute of an enum asks for. -/
def replacement (s : Settings) (a : Attribute) (d : NominalDecl) :
    Except ExpansionError NominalDecl :=
  EnumReplacement.replacement s.conformance s.insertMissingInheritance a d

/-- The attributes that ask for a replacement. -/
def triggers (d : NominalDecl) : List Attribute :=
  d.head.preamble.attributes.filter (·.name == EnumReplacement.name)

/-- The replacements proposed for a top-level declaration, one for each attribute that asks for
one and can have it. -/
def proposals (s : Settings) : Decl → List NominalDecl
  | .enum d => (triggers d).filterMap fun a ↦ (s.replacement a d).toOption
  | _ => []

theorem entries_registry (s : Settings) :
    s.registry.entries = [ConformanceExtension.generator s.conformance,
      EnumReplacement.generator s.conformance s.insertMissingInheritance] := by
  have hne : EnumReplacement.name ≠ ConformanceExtension.name := by decide
  simp [registry, Registry.ofList, Registry.register, Registry.empty,
    ConformanceExtension.generator, EnumReplacement.generator, hne]

theorem contains_registry (s : Settings) (name : String) :
    s.registry.contains name =
      (name == ConformanceExtension.name || name == EnumReplacement.name) := by
  simp only [Registry.contains, Registry.names, entries_registry, ConformanceExtension.generator,
    EnumReplacement.generator, List.map_cons, List.map_nil, List.contains_cons, List.contains_nil,
    Bool.or_false]

end Settings

namespace Expansion

/-- What an attribute of an enum brings as fix-its. -/
theorem fixIts_runAttribute (s : Settings) (d : NominalDecl) (a : Attribute) :
    (runAttribute s.registry (.enum d) a).2.flatMap Diagnostic.fixIts =
      if a.name = EnumReplacement.name then
        (s.replacement a d).toOption.toList.map fun new ↦ Catalog.fixIt (.enum d) (.enum new)
      else [] := by
  have hne : EnumReplacement.name ≠ ConformanceExtension.name := by decide
  unfold runAttribute Registry.get?
  rw [s.entries_registry]
  by_cases hext : a.name = ConformanceExtension.name
  · have hgen : [ConformanceExtension.generator s.conformance,
        EnumReplacement.generator s.conformance s.insertMissingInheritance].find?
        (·.name == a.name) = some (ConformanceExtension.generator s.conformance) := by
      simp [ConformanceExtension.generator, hext]
    rw [hgen, hext, if_neg hne.symm]
    simp only [ConformanceExtension.generator, onEnum, Decl.enum?]
    cases ConformanceExtension.build d s.conformance <;>
      simp [Except.map, Diagnostic.about]
  · by_cases hrep : a.name = EnumReplacement.name
    · have hgen : [ConformanceExtension.generator s.conformance,
          EnumReplacement.generator s.conformance s.insertMissingInheritance].find?
          (·.name == a.name) =
            some (EnumReplacement.generator s.conformance s.insertMissingInheritance) := by
        simp [ConformanceExtension.generator, EnumReplacement.generator, hrep, hne.symm]
      rw [hgen, if_pos hrep]
      simp only [EnumReplacement.run_generator, onEnum, Decl.enum?, Settings.replacement]
      cases EnumReplacement.replacement s.conformance s.insertMissingInheritance a d <;>
        simp [Except.toOption, Diagnostic.about, Diagnostic.withFixIt]
    · have hgen : [ConformanceExtension.generator s.conformance,
          EnumReplacement.generator s.conformance s.insertMissingInheritance].find?
          (·.name == a.name) = none := by
        simp [ConformanceExtension.generator, EnumReplacement.generator, Ne.symm hext,
          Ne.symm hrep]
      rw [hgen, if_neg hrep]
      rfl

theorem fixIts_runAttribute_of_not_enum (s : Settings) {d : Decl} (hd : d.enum? = none)
    (a : Attribute) : (runAttribute s.registry d a).2.flatMap Diagnostic.fixIts = [] := by
  unfold runAttribute
  split
  · rfl
  next g hg =>
    have hmem := List.mem_of_find?_eq_some hg
    rw [s.entries_registry] at hmem
    have hrun : (g.run a d (requestedConformances d g.conformance)) =
        ⟨.ok [], [Diagnostic.about a Catalog.notAnEnum]⟩ := by
      rcases List.mem_cons.1 hmem with rfl | hmem
      · simp [ConformanceExtension.generator, onEnum, hd]
      · rw [List.mem_singleton.1 hmem]
        simp [EnumReplacement.generator, onEnum, hd]
    simp [hrun, Diagnostic.about]

theorem fixIts_nestedDiagnostics (r : Registry) (d : Decl) :
    (nestedDiagnostics r d).flatMap Diagnostic.fixIts = [] := by
  simp [nestedDiagnostics, List.flatMap_assoc, List.flatMap_map, Diagnostic.about]

/-- The attributes that are run and bring a fix-it are those that ask for a replacement. -/
theorem fixIts_runAttributes (s : Settings) (d : NominalDecl) (as : List Attribute) :
    ((as.filter fun a ↦ s.registry.contains a.name).flatMap fun a ↦
        (runAttribute s.registry (.enum d) a).2.flatMap Diagnostic.fixIts) =
      ((as.filter (·.name == EnumReplacement.name)).filterMap fun a ↦
        (s.replacement a d).toOption).map fun new ↦ Catalog.fixIt (.enum d) (.enum new) := by
  induction as with
  | nil => rfl
  | cons a as ih =>
    by_cases hrep : a.name = EnumReplacement.name
    · have hreg : s.registry.contains a.name = true := by
        simp [s.contains_registry, hrep]
      rw [List.filter_cons, if_pos hreg, List.flatMap_cons, ih, fixIts_runAttribute, if_pos hrep,
        List.filter_cons, if_pos (by simp [hrep]), List.filterMap_cons]
      cases s.replacement a d <;> simp [Except.toOption]
    · have hskip : (a :: as).filter (·.name == EnumReplacement.name) =
          as.filter (·.name == EnumReplacement.name) := by
        simp [hrep]
      rw [hskip, ← ih, List.filter_cons]
      split
      · rw [List.flatMap_cons, fixIts_runAttribute, if_neg hrep, List.nil_append]
      · rfl

/-- The fix-its of an item put a proposed enum in the place of the item. -/
theorem fixIts_expandItem (s : Settings) (m : Member) :
    (expandItem s.registry m).2.flatMap Diagnostic.fixIts =
      (s.proposals m.decl).map fun new ↦ Catalog.fixIt m.decl (.enum new) := by
  unfold expandItem
  split
  next hgroup =>
    simp only [List.flatMap_append, fixIts_nestedDiagnostics, List.append_nil, List.flatMap_assoc,
      List.flatMap_map]
    cases hd : m.decl.enum? with
    | some d =>
      have henum : m.decl = .enum d := by
        cases hm : m.decl <;> simp_all [Decl.enum?]
      rw [henum]
      exact fixIts_runAttributes s d d.head.preamble.attributes
    | none =>
      have hnone : s.proposals m.decl = [] := by
        cases hm : m.decl <;> simp_all [Decl.enum?, Settings.proposals]
      rw [hnone]
      exact List.flatMap_eq_nil_iff.2 fun a _ ↦ fixIts_runAttribute_of_not_enum s hd a
  next hgroup =>
    cases hm : m.decl <;> simp_all [Decl.isGroup, Decl.block?, Settings.proposals]

theorem fixIts_ofFile (s : Settings) (file : SourceFile) :
    (ofFile s.registry file).diagnostics.flatMap Diagnostic.fixIts =
      file.items.flatMap fun m ↦
        (s.proposals m.decl).map fun new ↦ Catalog.fixIt m.decl (.enum new) := by
  simp only [ofFile, List.flatMap_assoc, List.flatMap_map, fixIts_expandItem]

end Expansion

end EnumForge
