import EnumForge.Proofs.Expansion.Composition
import Mathlib.Data.List.Dedup

/-!
# Registrations

A registry holds what its registrations leave: under each name the generator that was registered
last, and the names in the order in which they came first.  An expansion asks a registry for nothing
but the generator of a name.  So registrations that end with the same generator under every name
expand every source alike, in whatever order and however often they were made.
-/

namespace EnumForge

namespace Registry

/-! ### One registration -/

theorem contains_eq_isSome_get? (r : Registry) (name : String) :
    r.contains name = (r.get? name).isSome := by
  cases hname : r.contains name with
  | true =>
    obtain ⟨g, hg⟩ := exists_get?_of_contains hname
    rw [hg, Option.isSome_some]
  | false =>
    cases hg : r.get? name with
    | none => rfl
    | some g =>
      have heq : g.name = name := by simpa using List.find?_some hg
      have hmem : name ∈ r.names :=
        heq ▸ List.mem_map_of_mem (List.mem_of_find?_eq_some hg)
      rw [contains, List.contains_iff_mem.2 hmem] at hname
      cases hname

theorem entries_register_of_absent {r : Registry} {g : Generator}
    (hg : r.contains g.name = false) : (r.register g).entries = r.entries ++ [g] := by
  have hnot : g.name ∉ r.entries.map Generator.name := by
    intro hmem
    rw [contains, names, List.contains_iff_mem.2 hmem] at hg
    cases hg
  unfold register
  rw [dif_neg hnot]

theorem names_register_of_absent {r : Registry} {g : Generator}
    (hg : r.contains g.name = false) : (r.register g).names = r.names ++ [g.name] := by
  rw [names, entries_register_of_absent hg, List.map_append, names, List.map_singleton]

/-- A registration decides about its own name and about no other. -/
theorem get?_register (r : Registry) (g : Generator) (name : String) :
    (r.register g).get? name = if g.name = name then some g else r.get? name := by
  cases hg : r.contains g.name with
  | true =>
    split
    next heq => rw [← heq, get?_register_self hg]
    next hne => exact get?_register_of_ne hg (Ne.symm hne)
  | false =>
    rw [get?, entries_register_of_absent hg, List.find?_append]
    split
    next heq =>
      have hnone : r.get? name = none := by
        rwa [contains_eq_isSome_get?, Option.isSome_eq_false_iff, Option.isNone_iff_eq_none,
          heq] at hg
      rw [← get?, hnone, Option.none_or, List.find?_cons_of_pos (by simpa using heq)]
    next hne =>
      rw [List.find?_cons_of_neg (by simpa using hne), List.find?_nil, Option.or_none, ← get?]

/-! ### Runs of registrations -/

/-- The generator registered last under a name. -/
def last? (gs : List Generator) (name : String) : Option Generator :=
  (gs.filter (·.name == name)).getLast?

theorem last?_concat (gs : List Generator) (g : Generator) (name : String) :
    last? (gs ++ [g]) name = if g.name = name then some g else last? gs name := by
  rw [last?, List.filter_append]
  split
  next heq =>
    rw [List.filter_cons_of_pos (by simpa using heq), List.filter_nil, List.getLast?_concat]
  next hne =>
    rw [List.filter_cons_of_neg (by simpa using hne), List.filter_nil, List.append_nil, last?]

/-- The registry is what the registrations `gs`, made in this order, leave. -/
structure Records (r : Registry) (gs : List Generator) : Prop where
  get?_eq (name : String) : r.get? name = last? gs name
  contains_eq (name : String) : r.contains name = (r.get? name).isSome
  names_nodup : r.names.Nodup
  mem_names (name : String) : name ∈ r.names ↔ ∃ g ∈ gs, g.name = name
  /-- A name stands before another if its first registration does. -/
  names_ordered : r.names.Pairwise fun a b ↦
    (gs.map Generator.name).idxOf a < (gs.map Generator.name).idxOf b

theorem records_empty : Records empty [] where
  get?_eq _ := rfl
  contains_eq _ := rfl
  names_nodup := List.nodup_nil
  mem_names name := by simp [names, empty]
  names_ordered := List.Pairwise.nil

/-- One more registration: a new name comes last, a known one keeps its position, since positions
go by first registrations. -/
theorem Records.register {r : Registry} {gs : List Generator} (h : Records r gs) (g : Generator) :
    Records (r.register g) (gs ++ [g]) where
  get?_eq name := by rw [get?_register, last?_concat, h.get?_eq]
  contains_eq := contains_eq_isSome_get? _
  names_nodup := (r.register g).names_nodup
  mem_names name := by
    have hmem := h.mem_names
    cases hg : r.contains g.name with
    | true =>
      have hknown := (hmem g.name).1 (List.contains_iff_mem.1 hg)
      rw [names_register hg, hmem]
      grind
    | false =>
      rw [names_register_of_absent hg, List.mem_append, List.mem_singleton, hmem]
      grind
  names_ordered := by
    have hmem : ∀ name ∈ r.names, name ∈ gs.map Generator.name := by
      intro name hname
      simpa using (h.mem_names name).1 hname
    have hkept : r.names.Pairwise fun a b ↦
        ((gs ++ [g]).map Generator.name).idxOf a < ((gs ++ [g]).map Generator.name).idxOf b := by
      refine h.names_ordered.imp_of_mem fun ha hb hlt ↦ ?_
      rwa [List.map_append, List.idxOf_append_of_mem (hmem _ ha),
        List.idxOf_append_of_mem (hmem _ hb)]
    cases hg : r.contains g.name with
    | true => rwa [names_register hg]
    | false =>
      have hnew : g.name ∉ gs.map Generator.name := by
        intro hold
        have hname : g.name ∈ r.names := (h.mem_names g.name).2 (by simpa using hold)
        rw [contains, List.contains_iff_mem.2 hname] at hg
        cases hg
      rw [names_register_of_absent hg]
      refine List.pairwise_append.2 ⟨hkept, List.pairwise_singleton _ _, ?_⟩
      intro a ha b hb
      rw [List.mem_singleton.1 hb, List.map_append, List.idxOf_append_of_mem (hmem a ha),
        List.idxOf_append_of_notMem hnew]
      exact Nat.lt_add_right _ (List.idxOf_lt_length_of_mem (hmem a ha))

theorem records_ofList (gs : List Generator) : Records (ofList gs) gs := by
  induction gs using List.reverseRecOn with
  | nil => exact records_empty
  | append_singleton gs g ih =>
    rw [ofList, List.foldl_append]
    exact ih.register g

/-- There are as many generators as different names among the registrations. -/
theorem Records.size_eq {r : Registry} {gs : List Generator} (h : Records r gs) :
    r.size = (gs.map Generator.name).dedup.length := by
  have hperm : r.names.Perm (gs.map Generator.name).dedup := by
    rw [List.perm_ext_iff_of_nodup h.names_nodup (List.nodup_dedup _)]
    intro name
    rw [h.mem_names, List.mem_dedup, List.mem_map]
  rw [← hperm.length_eq, names, List.length_map, size]

end Registry

/-! ### Registries that answer alike -/

namespace Expansion

variable {r r' : Registry}

theorem runAttribute_congr (h : ∀ name, r.get? name = r'.get? name) :
    runAttribute r = runAttribute r' := by
  funext d a
  rw [runAttribute, h, runAttribute]

theorem expandItem_congr (h : ∀ name, r.get? name = r'.get? name) :
    expandItem r = expandItem r' := by
  have hcontains : r.contains = r'.contains := by
    funext name
    rw [Registry.contains_eq_isSome_get?, h, Registry.contains_eq_isSome_get?]
  have hnested : nestedDiagnostics r = nestedDiagnostics r' := by
    funext d
    rw [nestedDiagnostics, hcontains, nestedDiagnostics]
  funext m
  rw [expandItem, hcontains, runAttribute_congr h, hnested, expandItem]

theorem ofFile_congr (h : ∀ name, r.get? name = r'.get? name) : ofFile r = ofFile r' := by
  funext file
  rw [ofFile, expandItem_congr h, ofFile]

end Expansion

theorem expandSource_congr {r r' : Registry} (h : ∀ name, r.get? name = r'.get? name)
    (source : String) : expandSource source r = expandSource source r' := by
  rw [expandSource, Expansion.ofFile_congr h, expandSource]

/-- A run of registrations leaves each name once, in the order of the first registrations, with the
generator registered last.  Another run that leaves the same generator under every name expands
every source to the same text and reports, or fails alike. -/
theorem expandSource_ofList (gs : List Generator) :
    (Registry.ofList gs).Records gs ∧
      ∀ gs', (∀ name, Registry.last? gs name = Registry.last? gs' name) →
        ∀ source, expandSource source (.ofList gs) = expandSource source (.ofList gs') := by
  refine ⟨Registry.records_ofList gs, fun gs' hlast source ↦ ?_⟩
  apply expandSource_congr
  intro name
  rw [(Registry.records_ofList gs).get?_eq, hlast, (Registry.records_ofList gs').get?_eq]

/-- A failing generator gives way to one of its name that is registered later. -/
theorem expandSource_ofList_failingGenerator :
    (Registry.ofList [failingGenerator, ConformanceExtension.generator "P",
        EnumReplacement.generator "P" true]).names = ["AppEnumGenFixIt", "AppEnumGen"] ∧
      (Registry.ofList [ConformanceExtension.generator "P",
        EnumReplacement.generator "P" true]).names = ["AppEnumGen", "AppEnumGenFixIt"] ∧
      expandSource doublyAttachedSource (.ofList [failingGenerator,
          ConformanceExtension.generator "P", EnumReplacement.generator "P" true]) =
        expandSource doublyAttachedSource (.ofList [ConformanceExtension.generator "P",
          EnumReplacement.generator "P" true]) := by
  refine ⟨by decide, by decide, (expandSource_ofList _).2 _ ?_ doublyAttachedSource⟩
  intro name
  have hboth := Registry.last?_concat [failingGenerator, ConformanceExtension.generator "P"]
    (EnumReplacement.generator "P" true) name
  have hone := Registry.last?_concat [ConformanceExtension.generator "P"]
    (EnumReplacement.generator "P" true) name
  simp only [List.cons_append, List.nil_append] at hboth hone
  rw [hboth, hone]
  split
  next => rfl
  next hne =>
    have hfailing : failingGenerator.name ≠ name := hne
    rw [Registry.last?, List.filter_cons_of_neg (by simpa using hfailing), Registry.last?]

end EnumForge
