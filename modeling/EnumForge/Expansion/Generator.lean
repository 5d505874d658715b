import EnumForge.Diagnostic
import EnumForge.Error

/-!
# Generators

A generator is attached to a declaration by an attribute of its name.  It answers with extensions
to put after the declaration, or with a failure, and may report diagnostics either way.  A registry
holds generators of different names in the order of their first registration.
-/

namespace EnumForge

/-- What one run of a generator brings. -/
structure Outcome where
  result : Except ExpansionError (List ExtensionDecl)
  diagnostics : List Diagnostic

structure Generator where
  /-- The attribute that attaches it. -/
  name : String
  /-- The protocol that its extensions conform to. -/
  conformance : String
  /-- Runs for an attribute of a declaration; the types are those it is asked to conform to. -/
  run : Attribute → Decl → List TypeRef → Outcome

structure Registry where
  entries : List Generator
  names_nodup : (entries.map Generator.name).Nodup

namespace Registry

def empty : Registry := ⟨[], List.nodup_nil⟩

instance : Inhabited Registry := ⟨empty⟩

def names (r : Registry) : List String := r.entries.map Generator.name

def contains (r : Registry) (name : String) : Bool := r.names.contains name

def get? (r : Registry) (name : String) : Option Generator := r.entries.find? (·.name == name)

def size (r : Registry) : Nat := r.entries.length

/-- Puts `g` in the place of the generator of its name. -/
def replaceEntry (g : Generator) (entries : List Generator) : List Generator :=
  entries.map fun e ↦ if e.name = g.name then g else e

theorem map_name_replaceEntry (g : Generator) (entries : List Generator) :
    (replaceEntry g entries).map Generator.name = entries.map Generator.name := by
  simp only [replaceEntry, List.map_map]
  refine List.map_congr_left fun e _ ↦ ?_
  simp only [Function.comp]
  split
  next h => exact h.symm
  next => rfl

/-- Adds a generator; one of the same name gives way and leaves its position. -/
def register (r : Registry) (g : Generator) : Registry :=
  if h : g.name ∈ r.entries.map Generator.name then
    ⟨replaceEntry g r.entries, by rw [map_name_replaceEntry]; exact r.names_nodup⟩
  else
    ⟨r.entries ++ [g], by
      rw [List.map_append, List.nodup_append]
      refine ⟨r.names_nodup, by simp, ?_⟩
      intro a ha b hb
      simp only [List.map_cons, List.map_nil, List.mem_singleton] at hb
      subst hb
      exact fun hab ↦ h (hab ▸ ha)⟩

def ofList (gs : List Generator) : Registry := gs.foldl register empty

end Registry

end EnumForge
