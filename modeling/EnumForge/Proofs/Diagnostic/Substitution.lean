import EnumForge.Diagnostic.FixIt
import EnumForge.Proofs.Token.Place
import Mathlib.Data.List.Chain

/-!
# Edits as a substitution

A text is a row of slots, each with the texts proposed for its middle part.  The edits that stand
for the proposals are in order as they come.  They overlap exactly when a slot has two proposals;
otherwise making them from the last to the first fills every slot at once and changes nothing else.
-/

namespace EnumForge

/-- A part of a text around `old`, with what is proposed in the place of `old`. -/
structure Slot where
  before : String
  old : String
  after : String
  proposals : List String

namespace Slot

def text (p : Slot) : String := p.before ++ p.old ++ p.after

/-- What stands in the slot in the end: a single proposal, or else the old text. -/
def choice (p : Slot) : String :=
  match p.proposals with
  | [new] => new
  | _ => p.old

def filled (p : Slot) : String := p.before ++ p.choice ++ p.after

/-- The edits for slots the first of which starts at byte `n`. -/
def edits : Nat → List Slot → List TextEdit
  | _, [] => []
  | n, p :: ps =>
    let start := n + p.before.utf8ByteSize
    p.proposals.map (TextEdit.mk ⟨start, start + p.old.utf8ByteSize⟩) ++
      edits (n + p.text.utf8ByteSize) ps

theorem size_text (p : Slot) : p.text.utf8ByteSize =
    p.before.utf8ByteSize + p.old.utf8ByteSize + p.after.utf8ByteSize := by
  simp only [text, String.utf8ByteSize_append]

theorem le_start_of_mem_edits {n : Nat} {ps : List Slot} {e : TextEdit} (h : e ∈ edits n ps) :
    n ≤ e.span.start := by
  induction ps generalizing n with
  | nil => simp [edits] at h
  | cons p ps ih =>
    rcases List.mem_append.1 h with hfirst | hrest
    · obtain ⟨new, -, rfl⟩ := List.mem_map.1 hfirst
      exact Nat.le_add_right n _
    · have hle := ih hrest
      omega

theorem le_start_of_mem_edits_cons {n : Nat} {p : Slot} {ps : List Slot} {e : TextEdit}
    (h : e ∈ edits (n + p.text.utf8ByteSize) ps) :
    n + p.before.utf8ByteSize + p.old.utf8ByteSize ≤ e.span.start := by
  have hle := le_start_of_mem_edits h
  rw [size_text] at hle
  omega

theorem pairwise_start_edits (n : Nat) (ps : List Slot) :
    (edits n ps).Pairwise fun a b ↦ a.span.start ≤ b.span.start := by
  induction ps generalizing n with
  | nil => exact List.Pairwise.nil
  | cons p ps ih =>
    refine List.pairwise_append.2 ⟨?_, ih _, ?_⟩
    · exact List.pairwise_map.2 (List.pairwise_of_forall fun _ _ ↦ Nat.le_refl _)
    · intro a ha b hb
      obtain ⟨new, -, rfl⟩ := List.mem_map.1 ha
      have hle := le_start_of_mem_edits_cons hb
      dsimp only
      omega

theorem mergeSort_edits (n : Nat) (ps : List Slot) :
    (edits n ps).mergeSort (fun a b ↦ a.span.start ≤ b.span.start) = edits n ps := by
  refine List.mergeSort_of_pairwise ?_
  simpa using pairwise_start_edits n ps

theorem pairwise_stop_edits {n : Nat} {ps : List Slot} (h : ∀ p ∈ ps, p.proposals.length ≤ 1) :
    (edits n ps).Pairwise fun a b ↦ a.span.stop ≤ b.span.start := by
  induction ps generalizing n with
  | nil => exact List.Pairwise.nil
  | cons p ps ih =>
    refine List.pairwise_append.2 ⟨?_, ih fun q hq ↦ h q (List.mem_cons_of_mem p hq), ?_⟩
    · have hp := h p (by simp)
      rcases hnew : p.proposals with - | ⟨new, - | ⟨new', news⟩⟩
      · simp
      · simp
      · simp [hnew] at hp
    · intro a ha b hb
      obtain ⟨new, -, rfl⟩ := List.mem_map.1 ha
      exact le_start_of_mem_edits_cons hb

/-- Two proposals for one slot stand next to each other and for the same bytes. -/
theorem exists_infix_edits {n : Nat} {ps : List Slot} {p : Slot} (hp : p ∈ ps)
    (htwo : 2 ≤ p.proposals.length) :
    ∃ start new new', [⟨⟨start, start + p.old.utf8ByteSize⟩, new⟩,
      ⟨⟨start, start + p.old.utf8ByteSize⟩, new'⟩] <:+: edits n ps := by
  induction ps generalizing n with
  | nil => simp at hp
  | cons q ps ih =>
    rcases List.mem_cons.1 hp with rfl | hp
    · rcases hnew : p.proposals with - | ⟨new, - | ⟨new', news⟩⟩
      · simp [hnew] at htwo
      · simp [hnew] at htwo
      · refine ⟨n + p.before.utf8ByteSize, new, new', [], ?_⟩
        simp only [edits, hnew, List.map_cons, List.nil_append, List.cons_append]
        exact ⟨_, rfl⟩
    · obtain ⟨start, new, new', hsub⟩ := ih (n := n + q.text.utf8ByteSize) hp
      exact ⟨start, new, new', hsub.trans (List.suffix_append _ _).isInfix⟩

end Slot

namespace TextEdit

theorem firstOverlap?_eq_none_iff {es : List TextEdit} :
    firstOverlap? es = none ↔ es.IsChain fun a b ↦ a.span.stop ≤ b.span.start := by
  fun_induction firstOverlap? es with
  | case1 a b rest h =>
    simp only [reduceCtorEq, List.isChain_cons_cons, false_iff, not_and]
    omega
  | case2 a b rest h ih =>
    rw [ih, List.isChain_cons_cons]
    exact ⟨fun hrest ↦ ⟨by omega, hrest⟩, fun hboth ↦ hboth.2⟩
  | case3 es h =>
    rcases es with - | ⟨a, - | ⟨b, rest⟩⟩
    · simp
    · simp
    · exact absurd rfl (h a b rest)

/-- An edit changes what its bytes hold and nothing else. -/
theorem apply_append (before old after new : String) :
    apply ⟨⟨before.utf8ByteSize, before.utf8ByteSize + old.utf8ByteSize⟩, new⟩
      (before ++ old ++ after) = before ++ new ++ after := by
  have hstart := Text.splitAtByte_byteSize before.toList (old.toList ++ after.toList)
  have hstop := Text.splitAtByte_byteSize (before.toList ++ old.toList) after.toList
  rw [Text.byteSize_append, Text.byteSize_toList, Text.byteSize_toList] at hstop
  rw [Text.byteSize_toList] at hstart
  simp only [apply, String.toList_append, List.append_assoc] at hstop ⊢
  rw [hstart, hstop, String.ofList_toList, String.ofList_toList]

end TextEdit

namespace Slot

theorem firstOverlap?_edits {n : Nat} {ps : List Slot}
    (hold : ∀ p ∈ ps, p.proposals ≠ [] → p.old ≠ "") :
    TextEdit.firstOverlap? (edits n ps) = none ↔ ∀ p ∈ ps, p.proposals.length ≤ 1 := by
  rw [TextEdit.firstOverlap?_eq_none_iff]
  constructor
  · intro hchain p hp
    by_contra htwo
    obtain ⟨start, new, new', hsub⟩ := exists_infix_edits (n := n) hp (by omega)
    have hle := List.isChain_pair.1 <| List.IsChain.infix hchain hsub
    have hne : p.proposals ≠ [] := by
      intro hnil
      simp [hnil] at htwo
    have hsize := String.utf8ByteSize_eq_zero_iff.not.2 (hold p hp hne)
    dsimp only at hle
    omega
  · intro h
    exact (pairwise_stop_edits h).isChain

/-- Filling the slots from the last to the first fills them all; the slots before the edits keep
their bytes, so the edits keep finding their places. -/
theorem foldr_apply_edits {ps : List Slot} (h : ∀ p ∈ ps, p.proposals.length ≤ 1)
    (before after : String) :
    (edits before.utf8ByteSize ps).foldr TextEdit.apply
        (before ++ String.join (ps.map text) ++ after) =
      before ++ String.join (ps.map filled) ++ after := by
  induction ps generalizing before with
  | nil => rfl
  | cons p ps ih =>
    have hrest := ih (fun q hq ↦ h q (List.mem_cons_of_mem p hq)) (before ++ p.text)
    rw [String.utf8ByteSize_append] at hrest
    have hp := h p (by simp)
    have htext : before ++ String.join ((p :: ps).map text) ++ after =
        before ++ p.text ++ String.join (ps.map text) ++ after := by
      simp only [List.map_cons, String.join_cons, String.append_assoc]
    rw [edits, List.foldr_append, htext, hrest]
    rcases hnew : p.proposals with - | ⟨new, - | ⟨new', news⟩⟩
    · simp [filled, choice, hnew, text, String.append_assoc]
    · have happly := TextEdit.apply_append (before ++ p.before) p.old
        (p.after ++ String.join (ps.map filled) ++ after) new
      rw [String.utf8ByteSize_append] at happly
      simp only [text, filled, choice, hnew, List.map_cons, List.map_nil, List.foldr_cons,
        List.foldr_nil, String.join_cons, String.append_assoc] at happly ⊢
      exact happly
    · simp [hnew] at hp

theorem applyAll_edits_of_le_one {ps : List Slot} (h : ∀ p ∈ ps, p.proposals.length ≤ 1)
    (hold : ∀ p ∈ ps, p.proposals ≠ [] → p.old ≠ "") (after : String) :
    TextEdit.applyAll (edits 0 ps) (String.join (ps.map text) ++ after) =
      .ok (String.join (ps.map filled) ++ after) := by
  have hfold := foldr_apply_edits h "" after
  simp only [String.utf8ByteSize_empty, String.empty_append] at hfold
  rw [TextEdit.applyAll, mergeSort_edits, (firstOverlap?_edits hold).2 h]
  exact congrArg Except.ok hfold

theorem applyAll_edits_of_two_le {ps : List Slot} {p : Slot} (hp : p ∈ ps)
    (htwo : 2 ≤ p.proposals.length) (hold : ∀ p ∈ ps, p.proposals ≠ [] → p.old ≠ "")
    (source : String) :
    ∃ offset, TextEdit.applyAll (edits 0 ps) source = .error (.overlappingFixIts offset) := by
  rw [TextEdit.applyAll, mergeSort_edits]
  cases hfirst : TextEdit.firstOverlap? (edits 0 ps) with
  | some offset => exact ⟨offset, rfl⟩
  | none =>
    have hle := (firstOverlap?_edits hold).1 hfirst p hp
    omega

end Slot

end EnumForge
