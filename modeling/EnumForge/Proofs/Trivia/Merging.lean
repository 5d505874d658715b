import EnumForge.Trivia
import Mathlib.Data.List.DropRight
import Mathlib.Data.List.Induction

/-!
# Pieces that are merged

A piece that is pushed meets the last piece only: the two become one if they are blanks of the same
kind, and stand side by side otherwise.
-/

namespace EnumForge

namespace TriviaPiece

def isComment : TriviaPiece → Bool
  | lineComment _ | blockComment _ => true
  | _ => false

/-- The character that blanks of this kind are made of; comments and marks have none. -/
def blank? : TriviaPiece → Option Char
  | spaces _ => some ' '
  | tabs _ => some '\t'
  | newlines _ => some '\n'
  | carriageReturns _ => some '\r'
  | _ => none

/-- The pieces are not blanks of the same kind. -/
def Apart (p q : TriviaPiece) : Prop := ∀ c ∈ p.blank?, c ∉ q.blank?

theorem merge?_eq_none_iff {p q : TriviaPiece} : p.merge? q = none ↔ p.Apart q := by
  cases p <;> cases q <;> simp [merge?, Apart, blank?]

theorem blank?_of_merge? {p q merged : TriviaPiece} (h : q.merge? p = some merged) :
    merged.blank? = q.blank? ∧ merged.blank? = p.blank? := by
  cases q <;> cases p <;> simp [merge?] at h <;> subst h <;> exact ⟨rfl, rfl⟩

theorem merge?_assoc (r p q : TriviaPiece) :
    (r.merge? p).bind (·.merge? q) = (p.merge? q).bind r.merge? := by
  cases p <;> cases q <;> cases r <;>
    first | rfl | simp only [merge?, Option.bind_some, Nat.add_assoc]

theorem isBlank_of_merge? {p q merged : TriviaPiece} (h : q.merge? p = some merged) :
    merged.isBlank = p.isBlank ∧ q.isBlank = p.isBlank := by
  cases q <;> cases p <;> simp [merge?] at h <;> subst h <;> exact ⟨rfl, rfl⟩

end TriviaPiece

namespace Trivia

theorem pushPiece_concat (p q : TriviaPiece) (ps : List TriviaPiece) :
    pushPiece p (ps ++ [q]) =
      match q.merge? p with
      | some merged => ps ++ [merged]
      | none => ps ++ [q] ++ [p] := by
  induction ps with
  | nil => cases h : q.merge? p <;> simp [pushPiece, h]
  | cons r ps ih =>
    obtain ⟨s, ss, hs⟩ := List.exists_cons_of_ne_nil (l := ps ++ [q]) (by simp)
    rw [hs] at ih
    rw [List.cons_append, hs, pushPiece, ih]
    cases q.merge? p <;> simp [← hs]

theorem pushPiece_eq (p : TriviaPiece) (ps : List TriviaPiece) :
    pushPiece p ps = ps ++ [p] ∨ ∃ init q merged, ps = init ++ [q] ∧ q.merge? p = some merged ∧
      pushPiece p ps = init ++ [merged] := by
  obtain rfl | ⟨init, q, rfl⟩ := List.eq_nil_or_concat' ps
  · exact .inl rfl
  · rw [pushPiece_concat]
    cases h : q.merge? p with
    | none => exact .inl rfl
    | some merged => exact .inr ⟨init, q, merged, rfl, h, rfl⟩

theorem ofPieces_concat (ps : List TriviaPiece) (p : TriviaPiece) :
    ofPieces (ps ++ [p]) = (ofPieces ps).push p := by simp [ofPieces]

/-- What holds of all pieces holds of the merged ones, if merging keeps it. -/
theorem forall_mem_ofPieces {P : TriviaPiece → Prop}
    (hmerge : ∀ {p q merged}, q.merge? p = some merged → P q → P merged)
    {ps : List TriviaPiece} (h : ∀ p ∈ ps, P p) : ∀ p ∈ (ofPieces ps).pieces, P p := by
  induction ps using List.reverseRecOn with
  | nil => simp [ofPieces, empty]
  | append_singleton ps p ih =>
    have hps := ih fun q hq ↦ h q (List.mem_append_left _ hq)
    rw [ofPieces_concat, push]
    rcases pushPiece_eq p (ofPieces ps).pieces with hpush | ⟨init, q, merged, hlast, hm, hpush⟩
    · rw [hpush]
      intro r hr
      rcases List.mem_append.1 hr with hr | hr
      · exact hps r hr
      · exact h r (List.mem_append_right _ hr)
    · rw [hpush]
      rw [hlast] at hps
      intro r hr
      rcases List.mem_append.1 hr with hr | hr
      · exact hps r (List.mem_append_left _ hr)
      · obtain rfl := List.mem_singleton.1 hr
        exact hmerge hm (hps q (by simp))

end Trivia

end EnumForge
