import EnumForge.Proofs.Diagnostic.Substitution
import EnumForge.Proofs.Grammar.Locating
import Mathlib.Data.List.Sort

/-!
# Fix-its at once

The replacements of any diagnostics, in any order, whose old declarations cover parts of the source.
Edits that are sorted by their starts overlap somewhere exactly when two neighbours do.  Edits that
do not overlap cut the source into slots, and filling the slots is what making the edits comes to;
so the order in which they were proposed is of no account.
-/

namespace EnumForge

open Text (Span)

namespace Text.Span

/-- There is a byte in both spans. -/
def Shares (a b : Span) : Prop :=
  ∃ n, (a.start ≤ n ∧ n < a.stop) ∧ b.start ≤ n ∧ n < b.stop

theorem Shares.symm {a b : Span} (h : a.Shares b) : b.Shares a := by
  obtain ⟨n, ha, hb⟩ := h
  exact ⟨n, hb, ha⟩

theorem not_shares_of_stop_le {a b : Span} (h : a.stop ≤ b.start) : ¬a.Shares b := by
  rintro ⟨n, ha, hb⟩
  omega

/-- A span that starts no earlier than another one shares its first byte with it or none. -/
theorem stop_le_of_not_shares {a b : Span} (hstart : a.start ≤ b.start) (hb : b.start < b.stop)
    (h : ¬a.Shares b) : a.stop ≤ b.start := by
  by_contra hlt
  exact h ⟨b.start, by omega, by omega⟩

end Text.Span

/-! ### Edits in the order of their starts -/

namespace TextEdit

/-- No two of the edits have a byte in common. -/
def Apart (edits : List TextEdit) : Prop := edits.Pairwise fun a b ↦ ¬a.span.Shares b.span

/-- In an order of the edits by their starts, `a` and `b` are the first neighbours that share a
byte, and `b` starts at `offset`. -/
def FirstOverlap (edits : List TextEdit) (offset : Nat) : Prop :=
  ∃ before a b after, (before ++ a :: b :: after).Perm edits ∧
    (before ++ a :: b :: after).Pairwise (fun x y ↦ x.span.start ≤ y.span.start) ∧
    (before ++ [a]).IsChain (fun x y ↦ ¬x.span.Shares y.span) ∧
    a.span.Shares b.span ∧ b.span.start = offset

variable {edits es : List TextEdit}

/-- What is said about any two edits that share a byte does not depend on their order. -/
theorem pairwise_shares_iff (P : Nat → Prop) (hperm : edits.Perm es) :
    (edits.Pairwise fun x y ↦ x.span.Shares y.span → P (max x.span.start y.span.start)) ↔
      es.Pairwise fun x y ↦ x.span.Shares y.span → P (max x.span.start y.span.start) := by
  apply hperm.pairwise_iff
  intro x y hxy hshares
  rw [Nat.max_comm]
  exact hxy hshares.symm

theorem Apart.perm (h : Apart edits) (hperm : edits.Perm es) : Apart es :=
  (pairwise_shares_iff (fun _ ↦ False) hperm).1 h

/-- Sorted edits of which no neighbours share a byte come one after the other. -/
theorem pairwise_stop_le (hsorted : es.Pairwise fun a b ↦ a.span.start ≤ b.span.start)
    (hne : ∀ e ∈ es, e.span.start < e.span.stop)
    (h : es.IsChain fun a b ↦ ¬a.span.Shares b.span) :
    es.Pairwise fun a b ↦ a.span.stop ≤ b.span.start := by
  induction es with
  | nil => exact .nil
  | cons a es ih =>
    have hrest := ih hsorted.of_cons (fun e he ↦ hne e (List.mem_cons_of_mem a he)) h.of_cons
    refine .cons ?_ hrest
    cases es with
    | nil => simp
    | cons b es =>
      have hb := hne b (by simp)
      have hle := Span.stop_le_of_not_shares ((List.pairwise_cons.1 hsorted).1 b (by simp)) hb
        (List.isChain_cons_cons.1 h).1
      intro c hc
      obtain rfl | hc := List.mem_cons.1 hc
      · exact hle
      · have hstop := (List.pairwise_cons.1 hrest).1 c hc
        omega

theorem apart_of_pairwise_stop_le (h : es.Pairwise fun a b ↦ a.span.stop ≤ b.span.start) :
    Apart es :=
  h.imp fun hle ↦ Span.not_shares_of_stop_le hle

theorem exists_of_firstOverlap? {offset : Nat} (h : firstOverlap? es = some offset) :
    ∃ before a b after, es = before ++ a :: b :: after ∧
      (before ++ [a]).IsChain (fun x y ↦ x.span.stop ≤ y.span.start) ∧
      b.span.start < a.span.stop ∧ b.span.start = offset := by
  fun_induction firstOverlap? es with
  | case1 a b rest hlt =>
    exact ⟨[], a, b, rest, rfl, List.isChain_singleton a, hlt, Option.some.inj h⟩
  | case2 a b rest hge ih =>
    obtain ⟨before, x, y, after, heq, hchain, hlt, hstart⟩ := ih h
    refine ⟨a :: before, x, y, after, by rw [heq]; rfl, ?_, hlt, hstart⟩
    cases before with
    | nil =>
      obtain ⟨rfl, -⟩ := List.cons.inj heq
      exact List.isChain_pair.2 (by omega)
    | cons z before =>
      obtain ⟨rfl, -⟩ := List.cons.inj heq
      exact List.isChain_cons_cons.2 ⟨by omega, hchain⟩
  | case3 => simp at h

theorem perm_mergeSort (es : List TextEdit) :
    (es.mergeSort fun a b ↦ a.span.start ≤ b.span.start).Perm es :=
  List.mergeSort_perm es _

theorem pairwise_start_mergeSort (es : List TextEdit) :
    (es.mergeSort fun a b ↦ a.span.start ≤ b.span.start).Pairwise
      fun a b ↦ a.span.start ≤ b.span.start := by
  have hsorted : (es.mergeSort fun a b ↦ a.span.start ≤ b.span.start).Pairwise
      fun a b ↦ decide (a.span.start ≤ b.span.start) = true := by
    apply List.pairwise_mergeSort
    · intro a b c hab hbc
      simp only [decide_eq_true_eq] at hab hbc ⊢
      omega
    · intro a b
      simp only [Bool.or_eq_true, decide_eq_true_eq]
      omega
  exact hsorted.imp fun h ↦ of_decide_eq_true h

/-- Edits with different starts can be put in order in one way only. -/
theorem mergeSort_eq_of_perm (hperm : es.Perm edits)
    (hlt : es.Pairwise fun a b ↦ a.span.start < b.span.start) :
    (edits.mergeSort fun a b ↦ a.span.start ≤ b.span.start) = es := by
  have hne : edits.Pairwise fun a b ↦ a.span.start ≠ b.span.start :=
    (hperm.pairwise_iff fun hxy ↦ hxy.symm).1 (hlt.imp fun h ↦ Nat.ne_of_lt h)
  have hne' := ((perm_mergeSort edits).pairwise_iff fun hxy ↦ hxy.symm).2 hne
  have hlt' := (pairwise_start_mergeSort edits).imp₂
    (fun a b hle hne ↦ Nat.lt_of_le_of_ne hle hne) hne'
  refine List.Perm.eq_of_pairwise ?_ hlt' hlt ((perm_mergeSort edits).trans hperm.symm)
  intro a b _ _ hab hba
  omega

/-! ### The first overlap -/

/-- No two edits share a byte before the first overlap, whatever their order. -/
theorem FirstOverlap.le_of_shares {offset : Nat} (h : FirstOverlap edits offset)
    (hne : ∀ e ∈ edits, e.span.start < e.span.stop) :
    edits.Pairwise fun x y ↦ x.span.Shares y.span → offset ≤ max x.span.start y.span.start := by
  obtain ⟨before, a, b, after, hperm, hsorted, hchain, -, rfl⟩ := h
  rw [← pairwise_shares_iff _ hperm]
  have hsplit : before ++ a :: b :: after = (before ++ [a]) ++ b :: after := by simp
  rw [hsplit] at hperm hsorted ⊢
  obtain ⟨hleft, hright, -⟩ := List.pairwise_append.1 hsorted
  have hbehind : ∀ y ∈ b :: after, b.span.start ≤ y.span.start := by
    intro y hy
    obtain rfl | hy := List.mem_cons.1 hy
    · exact Nat.le_refl _
    · exact (List.pairwise_cons.1 hright).1 y hy
  have hstop := pairwise_stop_le hleft
    (fun e he ↦ hne e (hperm.subset (List.mem_append_left _ he))) hchain
  -- Two edits before `b` share nothing; of any other two, the later one starts no earlier than `b`.
  refine List.pairwise_append.2 ⟨?_, ?_, ?_⟩
  · exact hstop.imp fun hle hshares ↦ absurd hshares (Span.not_shares_of_stop_le hle)
  · refine List.Pairwise.imp_of_mem ?_ hright
    intro x y _ hy _ _
    exact Nat.le_trans (hbehind y hy) (Nat.le_max_right _ _)
  · intro x _ y hy _
    exact Nat.le_trans (hbehind y hy) (Nat.le_max_right _ _)

/-- Two edits share a byte at the first overlap. -/
theorem FirstOverlap.not_pairwise_ne {offset : Nat} (h : FirstOverlap edits offset) :
    ¬edits.Pairwise fun x y ↦ x.span.Shares y.span → max x.span.start y.span.start ≠ offset := by
  obtain ⟨before, a, b, after, hperm, hsorted, -, hshares, rfl⟩ := h
  rw [← pairwise_shares_iff (· ≠ b.span.start) hperm]
  intro hne
  have hpair : ∀ {R : TextEdit → TextEdit → Prop},
      (before ++ a :: b :: after).Pairwise R → R a b := by
    intro R hR
    exact (List.pairwise_cons.1 (List.pairwise_append.1 hR).2.1).1 b (by simp)
  exact hpair hne hshares (Nat.max_eq_right (hpair hsorted))

theorem FirstOverlap.unique {p q : Nat} (hp : FirstOverlap edits p) (hq : FirstOverlap edits q)
    (hne : ∀ e ∈ edits, e.span.start < e.span.stop) : p = q := by
  have hle {p q : Nat} (hp : FirstOverlap edits p) (hq : FirstOverlap edits q) : p ≤ q := by
    by_contra hlt
    refine hq.not_pairwise_ne ((hp.le_of_shares hne).imp ?_)
    intro x y hxy hshares
    have hmax := hxy hshares
    omega
  exact Nat.le_antisymm (hle hp hq) (hle hq hp)

theorem FirstOverlap.not_apart {offset : Nat} (h : FirstOverlap edits offset) : ¬Apart edits := by
  intro hapart
  exact h.not_pairwise_ne (hapart.imp fun hnot hshares ↦ absurd hshares hnot)

theorem apart_of_firstOverlap?_mergeSort (hne : ∀ e ∈ edits, e.span.start < e.span.stop)
    (h : firstOverlap? (edits.mergeSort fun a b ↦ a.span.start ≤ b.span.start) = none) :
    Apart edits := by
  have hchain := (firstOverlap?_eq_none_iff.1 h).imp fun a b ↦ Span.not_shares_of_stop_le
  have hstop := pairwise_stop_le (pairwise_start_mergeSort edits)
    (fun e he ↦ hne e ((perm_mergeSort edits).subset he)) hchain
  exact (apart_of_pairwise_stop_le hstop).perm (perm_mergeSort edits)

theorem firstOverlap_of_firstOverlap?_mergeSort {offset : Nat}
    (hne : ∀ e ∈ edits, e.span.start < e.span.stop)
    (h : firstOverlap? (edits.mergeSort fun a b ↦ a.span.start ≤ b.span.start) = some offset) :
    FirstOverlap edits offset := by
  obtain ⟨before, a, b, after, heq, hchain, hlt, hstart⟩ := exists_of_firstOverlap? h
  have hperm := perm_mergeSort edits
  have hsorted := pairwise_start_mergeSort edits
  rw [heq] at hperm hsorted
  have hab := (List.pairwise_cons.1 (List.pairwise_append.1 hsorted).2.1).1 b (by simp)
  have hb := hne b (hperm.subset (by simp))
  exact ⟨before, a, b, after, hperm, hsorted,
    hchain.imp fun a b ↦ Span.not_shares_of_stop_le, ⟨b.span.start, by omega, by omega⟩, hstart⟩

/-- Edits are refused for the first overlap and for nothing else. -/
theorem applyAll_eq_overlapping_iff (hne : ∀ e ∈ edits, e.span.start < e.span.stop)
    (source : String) (offset : Nat) :
    applyAll edits source = .error (.overlappingFixIts offset) ↔ FirstOverlap edits offset := by
  rw [applyAll]
  cases hfirst : firstOverlap? (edits.mergeSort fun a b ↦ a.span.start ≤ b.span.start) with
  | none =>
    have hapart := apart_of_firstOverlap?_mergeSort hne hfirst
    simp only [reduceCtorEq, false_iff]
    exact fun hoverlap ↦ hoverlap.not_apart hapart
  | some p =>
    have hoverlap := firstOverlap_of_firstOverlap?_mergeSort hne hfirst
    simp only [Except.error.injEq, HostError.overlappingFixIts.injEq]
    constructor
    · rintro rfl
      exact hoverlap
    · exact fun hoffset ↦ hoverlap.unique hoffset hne

theorem exists_firstOverlap_iff (hne : ∀ e ∈ edits, e.span.start < e.span.stop) :
    (∃ offset, FirstOverlap edits offset) ↔ ¬Apart edits := by
  constructor
  · rintro ⟨offset, hoverlap⟩
    exact hoverlap.not_apart
  · intro hnot
    cases hfirst : firstOverlap? (edits.mergeSort fun a b ↦ a.span.start ≤ b.span.start) with
    | none => exact absurd (apart_of_firstOverlap?_mergeSort hne hfirst) hnot
    | some p => exact ⟨p, firstOverlap_of_firstOverlap?_mergeSort hne hfirst⟩

/-! ### The slots of a source -/

/-- The source is a row of slots, one around the bytes of each edit; `fixed` is the same row with
the text of the edit in each slot. -/
def Substitutes (edits : List TextEdit) (source fixed : String) : Prop :=
  ∃ ps after, (∀ p ∈ ps, p.old ≠ "" ∧ ∃ new, p.proposals = [new]) ∧
    (Slot.edits 0 ps).Perm edits ∧ source = String.join (ps.map Slot.text) ++ after ∧
    fixed = String.join (ps.map Slot.filled) ++ after

theorem Substitutes.perm {source fixed : String} (h : Substitutes edits source fixed)
    (hperm : edits.Perm es) : Substitutes es source fixed := by
  obtain ⟨ps, after, hps, hslots, hsource, hfixed⟩ := h
  exact ⟨ps, after, hps, hslots.trans hperm, hsource, hfixed⟩

end TextEdit

theorem Slot.start_lt_stop_of_mem_edits {n : Nat} {ps : List Slot} (hps : ∀ p ∈ ps, p.old ≠ "")
    {e : TextEdit} (h : e ∈ edits n ps) : e.span.start < e.span.stop := by
  induction ps generalizing n with
  | nil => simp [edits] at h
  | cons p ps ih =>
    obtain hfirst | hrest := List.mem_append.1 h
    · obtain ⟨new, -, rfl⟩ := List.mem_map.1 hfirst
      have hsize := String.utf8ByteSize_eq_zero_iff.not.2 (hps p (by simp))
      dsimp only
      omega
    · exact ih (fun q hq ↦ hps q (List.mem_cons_of_mem p hq)) hrest

/-- Two cuts of a text, the first no later than the second: there is some text between them. -/
theorem Text.exists_between {before rest before' rest' : String}
    (h : before ++ rest = before' ++ rest') (hle : before.utf8ByteSize ≤ before'.utf8ByteSize) :
    ∃ gap, before' = before ++ gap ∧ rest = gap ++ rest' := by
  have hlist : before.toList ++ rest.toList = before'.toList ++ rest'.toList := by
    rw [← String.toList_append, h, String.toList_append]
  obtain ⟨gap, hbefore, hrest⟩ | ⟨gap, hbefore, hrest⟩ := List.append_eq_append_iff.1 hlist
  · refine ⟨String.ofList gap, ?_, ?_⟩
    · rw [← String.toList_inj, hbefore, String.toList_append, String.toList_ofList]
    · rw [← String.toList_inj, hrest, String.toList_append, String.toList_ofList]
  · have hsize := congrArg byteSize hbefore
    rw [byteSize_append, byteSize_toList, byteSize_toList] at hsize
    cases gap with
    | nil =>
      rw [List.append_nil, String.toList_inj] at hbefore
      rw [List.nil_append, String.toList_inj] at hrest
      exact ⟨"", by simp [hbefore], by simp [hrest]⟩
    | cons c gap =>
      have hpos := c.utf8Size_pos
      rw [byteSize_cons] at hsize
      omega

namespace TextEdit

variable {edits es : List TextEdit}

/-- Edits that come one after the other in `rest` cut it into slots. -/
theorem exists_slots {source before rest : String} (hsource : source = before ++ rest)
    (hwithin : ∀ e ∈ es, e.span.Within source)
    (hbehind : ∀ e ∈ es, before.utf8ByteSize ≤ e.span.start)
    (hstop : es.Pairwise fun a b ↦ a.span.stop ≤ b.span.start) :
    ∃ ps after, (∀ p ∈ ps, p.old ≠ "" ∧ ∃ new, p.proposals = [new]) ∧
      Slot.edits before.utf8ByteSize ps = es ∧ rest = String.join (ps.map Slot.text) ++ after := by
  induction es generalizing before rest with
  | nil => exact ⟨[], rest, by simp, rfl, by simp⟩
  | cons e es ih =>
    obtain ⟨before', old, rest', hsplit, hold, hspan⟩ := hwithin e (by simp)
    have hle := hbehind e (by simp)
    rw [hspan] at hle
    have hcuts : before ++ rest = before' ++ (old ++ rest') := by
      rw [← hsource, hsplit, String.append_assoc]
    obtain ⟨gap, rfl, rfl⟩ := Text.exists_between hcuts hle
    -- The slot of `e` takes up all text to the end of `old`; the other edits lie behind it.
    have hbehind' : ∀ e' ∈ es, (before ++ gap ++ old).utf8ByteSize ≤ e'.span.start := by
      intro e' he'
      have hnext := (List.pairwise_cons.1 hstop).1 e' he'
      rw [hspan] at hnext
      rw [String.utf8ByteSize_append]
      exact hnext
    obtain ⟨ps, after, hps, hedits, hrest⟩ := ih hsplit
      (fun e' he' ↦ hwithin e' (List.mem_cons_of_mem e he')) hbehind' hstop.of_cons
    refine ⟨⟨gap, old, "", [e.text]⟩ :: ps, after, ?_, ?_, ?_⟩
    · intro p hp
      obtain rfl | hp := List.mem_cons.1 hp
      · exact ⟨hold, e.text, rfl⟩
      · exact hps p hp
    · simp only [String.utf8ByteSize_append] at hedits hspan
      simp only [Slot.edits, Slot.size_text, String.utf8ByteSize_empty, Nat.add_zero, List.map_cons,
        List.map_nil, List.singleton_append, ← Nat.add_assoc]
      rw [hedits, ← hspan]
    · simp [Slot.text, hrest, String.join_cons, String.append_assoc]

/-- Edits of parts of the source that do not overlap are a substitution. -/
theorem exists_substitutes {source : String} (hwithin : ∀ e ∈ edits, e.span.Within source)
    (hapart : Apart edits) : ∃ fixed, Substitutes edits source fixed := by
  have hperm := perm_mergeSort edits
  have hwithin' := fun e he ↦ hwithin e (hperm.subset he)
  have hstop := pairwise_stop_le (pairwise_start_mergeSort edits)
    (fun e he ↦ (hwithin' e he).start_lt_stop) (hapart.perm hperm.symm).isChain
  obtain ⟨ps, after, hps, hedits, hsource⟩ :=
    exists_slots String.empty_append.symm hwithin' (fun e _ ↦ Nat.zero_le _) hstop
  exact ⟨_, ps, after, hps, hedits ▸ hperm, hsource, rfl⟩

/-- Making the edits from the last to the first makes the substitution. -/
theorem Substitutes.applyAll {source fixed : String} (h : Substitutes edits source fixed) :
    applyAll edits source = .ok fixed := by
  obtain ⟨ps, after, hps, hperm, rfl, rfl⟩ := h
  have hone : ∀ p ∈ ps, p.proposals.length ≤ 1 := by
    intro p hp
    obtain ⟨-, new, hnew⟩ := hps p hp
    simp [hnew]
  have hold : ∀ p ∈ ps, p.old ≠ "" := fun p hp ↦ (hps p hp).1
  have hlt : (Slot.edits 0 ps).Pairwise fun a b ↦ a.span.start < b.span.start := by
    refine List.Pairwise.imp_of_mem ?_ (Slot.pairwise_stop_edits hone)
    intro a b ha _ hle
    exact Nat.lt_of_lt_of_le (Slot.start_lt_stop_of_mem_edits hold ha) hle
  have hfilled := Slot.applyAll_edits_of_le_one hone (fun p hp _ ↦ hold p hp) after
  rw [TextEdit.applyAll, Slot.mergeSort_edits] at hfilled
  rw [TextEdit.applyAll, mergeSort_eq_of_perm hperm hlt]
  exact hfilled

end TextEdit

/-! ### The edits of diagnostics -/

/-- The edit that a replacement stands for, if its old declaration has a place. -/
def Replacement.edit? (r : Replacement) : Option TextEdit :=
  (Node.span r.old).map fun span ↦ ⟨span, Node.trimmed r.new⟩

/-- All old declarations of the fix-it have a place. -/
def FixIt.placed (f : FixIt) : Bool := f.changes.all fun r ↦ (Node.span r.old).isSome

theorem FixIt.edits_eq (f : FixIt) : f.edits =
    if f.placed then .ok (f.changes.filterMap Replacement.edit?)
    else .error (.missingSpan f.id.text) := by
  have hchanges (rs : List Replacement) : rs.mapM f.edit =
      if rs.all fun r ↦ (Node.span r.old).isSome then .ok (rs.filterMap Replacement.edit?)
      else .error (.missingSpan f.id.text) := by
    induction rs with
    | nil => rfl
    | cons r rs ih =>
      rw [List.mapM_cons, ih, FixIt.edit]
      cases hspan : Node.span r.old with
      | none => simp [hspan, bind, Except.bind]
      | some span =>
        have hedit : r.edit? = some ⟨span, Node.trimmed r.new⟩ := by simp [Replacement.edit?, hspan]
        rw [List.filterMap_cons_some hedit, List.all_cons, hspan, Option.isSome_some, Bool.true_and]
        cases rs.all fun r ↦ (Node.span r.old).isSome <;> rfl
  exact hchanges f.changes

theorem FixIt.mapM_edits (fs : List FixIt) : fs.mapM FixIt.edits =
    match fs.find? (!·.placed) with
    | some f => .error (.missingSpan f.id.text)
    | none => .ok (fs.map fun f ↦ f.changes.filterMap Replacement.edit?) := by
  induction fs with
  | nil => rfl
  | cons f fs ih =>
    rw [List.mapM_cons, ih, f.edits_eq]
    cases hplaced : f.placed with
    | false => simp [hplaced, bind, Except.bind]
    | true =>
      simp only [List.find?_cons, hplaced, Bool.not_true, if_true]
      cases fs.find? (!·.placed) <;> rfl

namespace Diagnostic

/-- Every replacement that the diagnostics propose. -/
def replacements (ds : List Diagnostic) : List Replacement :=
  (ds.flatMap fixIts).flatMap FixIt.changes

def edits (ds : List Diagnostic) : List TextEdit := (replacements ds).filterMap Replacement.edit?

def AllPlaced (ds : List Diagnostic) : Prop := ∀ r ∈ replacements ds, Node.span r.old ≠ none

end Diagnostic

open Diagnostic (replacements edits AllPlaced)

theorem applyFixIts_eq (source : String) (ds : List Diagnostic) : applyFixIts source ds =
    match (ds.flatMap Diagnostic.fixIts).find? (!·.placed) with
    | some f => .error (.missingSpan f.id.text)
    | none => TextEdit.applyAll (edits ds) source := by
  rw [applyFixIts, FixIt.mapM_edits]
  cases (ds.flatMap Diagnostic.fixIts).find? (!·.placed) with
  | some f => rfl
  | none =>
    have hedits : edits ds = ((ds.flatMap Diagnostic.fixIts).map
        fun f ↦ f.changes.filterMap Replacement.edit?).flatten := by
      rw [edits, replacements, List.filterMap_flatMap, List.flatMap_def]
    rw [hedits]
    rfl

theorem find?_placed_eq_none_iff {ds : List Diagnostic} :
    (ds.flatMap Diagnostic.fixIts).find? (!·.placed) = none ↔ AllPlaced ds := by
  have hfixIt (f : FixIt) : f.placed = true ↔ ∀ r ∈ f.changes, Node.span r.old ≠ none := by
    simp only [FixIt.placed, List.all_eq_true, Option.isSome_iff_ne_none]
  simp only [List.find?_eq_none, Bool.not_eq_true, Bool.not_eq_false', hfixIt]
  constructor
  · intro h r hr
    obtain ⟨f, hf, hr⟩ := List.mem_flatMap.1 hr
    exact h f hf r hr
  · intro h f hf r hr
    exact h r (List.mem_flatMap.2 ⟨f, hf, hr⟩)

theorem applyFixIts_of_placed {source : String} {ds : List Diagnostic} (h : AllPlaced ds) :
    applyFixIts source ds = TextEdit.applyAll (edits ds) source := by
  rw [applyFixIts_eq, find?_placed_eq_none_iff.2 h]

theorem applyFixIts_eq_missing_iff {source : String} {ds : List Diagnostic} {name : String} :
    applyFixIts source ds = .error (.missingSpan name) ↔
      ∃ f, (ds.flatMap Diagnostic.fixIts).find? (!·.placed) = some f ∧ f.id.text = name := by
  rw [applyFixIts_eq]
  cases (ds.flatMap Diagnostic.fixIts).find? (!·.placed) with
  | some f => simp
  | none =>
    simp only [TextEdit.applyAll]
    split <;> simp

theorem exists_of_mem_edits {ds : List Diagnostic} {e : TextEdit} (h : e ∈ edits ds) :
    ∃ r ∈ replacements ds, Node.span r.old = some e.span := by
  obtain ⟨r, hr, hedit⟩ := List.mem_filterMap.1 h
  obtain ⟨span, hspan, rfl⟩ := Option.map_eq_some_iff.1 hedit
  exact ⟨r, hr, hspan⟩

/-! ### Other orders -/

/-- The same proposals, with the diagnostics, the fix-its of a diagnostic or the changes of a fix-it
in another order. -/
inductive Reordered : List Diagnostic → List Diagnostic → Prop
  | diagnostics {ds ds' : List Diagnostic} : ds.Perm ds' → Reordered ds ds'
  | fixIts {before after : List Diagnostic} {d : Diagnostic} {fs : List FixIt} :
      d.fixIts.Perm fs →
        Reordered (before ++ d :: after) (before ++ { d with fixIts := fs } :: after)
  | changes {before after : List Diagnostic} {d : Diagnostic} {f : FixIt} {fs fs' : List FixIt}
      {rs : List Replacement} :
      d.fixIts = fs ++ f :: fs' → f.changes.Perm rs →
        Reordered (before ++ d :: after)
          (before ++ { d with fixIts := fs ++ { f with changes := rs } :: fs' } :: after)
  | trans {ds ds' ds'' : List Diagnostic} :
      Reordered ds ds' → Reordered ds' ds'' → Reordered ds ds''

theorem Reordered.perm_replacements {ds ds' : List Diagnostic} (h : Reordered ds ds') :
    (replacements ds).Perm (replacements ds') := by
  induction h with
  | diagnostics hperm => exact (hperm.flatMap_right _).flatMap_right _
  | fixIts hperm =>
    simp only [replacements, List.flatMap_append, List.flatMap_cons]
    exact ((hperm.flatMap_right _).append_right _).append_left _
  | changes hfixIts hperm =>
    simp only [replacements, List.flatMap_append, List.flatMap_cons, hfixIts]
    exact (((hperm.append_right _).append_left _).append_right _).append_left _
  | trans _ _ ih ih' => exact ih.trans ih'

/-! ### All fix-its -/

section Within

variable {source : String} {ds : List Diagnostic}

theorem exists_missing_iff (source : String) (ds : List Diagnostic) :
    (∃ name, applyFixIts source ds = .error (.missingSpan name)) ↔
      ∃ r ∈ replacements ds, Node.span r.old = none := by
  constructor
  · rintro ⟨name, hmissing⟩
    obtain ⟨f, hfind, -⟩ := applyFixIts_eq_missing_iff.1 hmissing
    by_contra hplaced
    have hnone : (ds.flatMap Diagnostic.fixIts).find? (!·.placed) = none :=
      find?_placed_eq_none_iff.2 fun r hr hspan ↦ hplaced ⟨r, hr, hspan⟩
    simp [hfind] at hnone
  · rintro ⟨r, hr, hspan⟩
    cases hfind : (ds.flatMap Diagnostic.fixIts).find? (!·.placed) with
    | none => exact absurd hspan (find?_placed_eq_none_iff.1 hfind r hr)
    | some f => exact ⟨f.id.text, applyFixIts_eq_missing_iff.2 ⟨f, hfind, rfl⟩⟩

theorem within_of_mem_edits
    (h : ∀ r ∈ replacements ds, ∀ span, Node.span r.old = some span → span.Within source) :
    ∀ e ∈ edits ds, e.span.Within source := by
  intro e he
  obtain ⟨r, hr, hspan⟩ := exists_of_mem_edits he
  exact h r hr e.span hspan

/-- Fix-its succeed with a substitution or not at all. -/
theorem applyFixIts_eq_ok_iff {fixed : String} (h : ∀ e ∈ edits ds, e.span.Within source) :
    applyFixIts source ds = .ok fixed ↔ AllPlaced ds ∧
      TextEdit.Substitutes (edits ds) source fixed := by
  constructor
  · intro hok
    have hplaced : AllPlaced ds := by
      intro r hr hspan
      obtain ⟨name, hmissing⟩ := (exists_missing_iff source ds).2 ⟨r, hr, hspan⟩
      simp [hok] at hmissing
    refine ⟨hplaced, ?_⟩
    rw [applyFixIts_of_placed hplaced] at hok
    have hne : ∀ e ∈ edits ds, e.span.start < e.span.stop := fun e he ↦ (h e he).start_lt_stop
    by_cases hapart : TextEdit.Apart (edits ds)
    · obtain ⟨fixed', hsubstitutes⟩ := TextEdit.exists_substitutes h hapart
      obtain rfl : fixed' = fixed := Except.ok.inj (hsubstitutes.applyAll.symm.trans hok)
      exact hsubstitutes
    · obtain ⟨offset, hoverlap⟩ := (TextEdit.exists_firstOverlap_iff hne).2 hapart
      have herror := (TextEdit.applyAll_eq_overlapping_iff hne source offset).2 hoverlap
      simp [hok] at herror
  · rintro ⟨hplaced, hsubstitutes⟩
    rw [applyFixIts_of_placed hplaced]
    exact hsubstitutes.applyAll

/-- Fix-its that succeed also do in another order, with the same text. -/
theorem Reordered.applyFixIts_eq_ok {fixed : String} {ds' : List Diagnostic}
    (hreordered : Reordered ds ds') (h : ∀ e ∈ edits ds, e.span.Within source)
    (hok : applyFixIts source ds = .ok fixed) : applyFixIts source ds' = .ok fixed := by
  obtain ⟨hplaced, hsubstitutes⟩ := (applyFixIts_eq_ok_iff h).1 hok
  have hperm := hreordered.perm_replacements
  rw [applyFixIts_of_placed fun r hr ↦ hplaced r (hperm.symm.subset hr)]
  exact (hsubstitutes.perm (hperm.filterMap _)).applyAll

end Within

/-- What comes of the fix-its of some diagnostics. -/
structure FixesAtOnce (source : String) (ds : List Diagnostic) : Prop where
  missing_iff : ∀ name, applyFixIts source ds = .error (.missingSpan name) ↔
    ∃ f, (ds.flatMap Diagnostic.fixIts).find? (!·.placed) = some f ∧ f.id.text = name
  exists_missing_iff : (∃ name, applyFixIts source ds = .error (.missingSpan name)) ↔
    ∃ r ∈ replacements ds, Node.span r.old = none
  overlapping_iff : AllPlaced ds → ∀ offset,
    (applyFixIts source ds = .error (.overlappingFixIts offset) ↔
      TextEdit.FirstOverlap (edits ds) offset)
  exists_overlapping_iff : AllPlaced ds →
    ((∃ offset, applyFixIts source ds = .error (.overlappingFixIts offset)) ↔
      ¬TextEdit.Apart (edits ds))
  fixed : AllPlaced ds → TextEdit.Apart (edits ds) →
    ∃ fixed, applyFixIts source ds = .ok fixed ∧ TextEdit.Substitutes (edits ds) source fixed
  reordered : ∀ fixed ds', applyFixIts source ds = .ok fixed → Reordered ds ds' →
    applyFixIts source ds' = .ok fixed
  unchanged : replacements ds = [] → applyFixIts source ds = .ok source

/-- The fix-its of diagnostics are made all at once or not at all, when the old declarations cover
parts of the source; every declaration that is read from the source does. -/
theorem applyFixIts_atOnce (source : String) (ds : List Diagnostic) :
    ((∀ r ∈ replacements ds, ∀ span, Node.span r.old = some span → span.Within source) →
      FixesAtOnce source ds) ∧
    ∀ file, parseSource source = .ok file → ∀ path m, Member.find? path file.items = some m →
      ∃ span, Node.span m.decl = some span ∧ span.Within source := by
  refine ⟨fun h ↦ ?_, fun file hparse path m hfind ↦ exists_span_of_find? hparse hfind⟩
  have hwithin := within_of_mem_edits h
  have hne : ∀ e ∈ edits ds, e.span.start < e.span.stop := fun e he ↦ (hwithin e he).start_lt_stop
  constructor
  · exact fun name ↦ applyFixIts_eq_missing_iff
  · exact exists_missing_iff source ds
  · intro hplaced offset
    rw [applyFixIts_of_placed hplaced]
    exact TextEdit.applyAll_eq_overlapping_iff hne source offset
  · intro hplaced
    simp only [applyFixIts_of_placed hplaced, TextEdit.applyAll_eq_overlapping_iff hne]
    exact TextEdit.exists_firstOverlap_iff hne
  · intro hplaced hapart
    obtain ⟨fixed, hsubstitutes⟩ := TextEdit.exists_substitutes hwithin hapart
    exact ⟨fixed, (applyFixIts_eq_ok_iff hwithin).2 ⟨hplaced, hsubstitutes⟩, hsubstitutes⟩
  · exact fun fixed ds' hok hreordered ↦ hreordered.applyFixIts_eq_ok hwithin hok
  · intro hnil
    rw [applyFixIts_of_placed (by simp [AllPlaced, hnil]), edits, hnil]
    simp [TextEdit.applyAll, TextEdit.firstOverlap?]

/-- One fix-it that puts two declarations in each other's place, the later one first. -/
def exchange (a b : Decl) : List Diagnostic :=
  [⟨.warning, ⟨"", "exchange"⟩, "", none, [⟨"", ⟨"", "exchange"⟩, [⟨b, a⟩, ⟨a, b⟩]⟩]⟩]

/-- Two declarations with a comment between them. -/
def neighbourSource : String := "enum A \x7b case ä \x7d\n// b\nstruct B \x7b\x7d\n"

theorem applyFixIts_atOnce_neighbourSource : ∃ file a b, parseSource neighbourSource = .ok file ∧
    file.items = [a, b] ∧ FixesAtOnce neighbourSource (exchange a.decl b.decl) ∧
    applyFixIts neighbourSource (exchange a.decl b.decl) =
      .ok "struct B \x7b\x7d\n// b\nenum A \x7b case ä \x7d\n" := by
  have hitems : ((parseSource neighbourSource).toOption.any fun file ↦
      file.items.map (fun m ↦ (Node.span m.decl, Node.trimmed m.decl)) ==
        [(some ⟨0, 18⟩, "enum A \x7b case ä \x7d"), (some ⟨24, 35⟩, "struct B \x7b\x7d")]) =
      true := by
    decide +kernel
  cases hparse : parseSource neighbourSource with
  | error err => simp [hparse, Except.toOption] at hitems
  | ok file =>
    simp only [hparse, Except.toOption, Option.any_some, beq_iff_eq, List.map_eq_cons_iff,
      List.map_eq_nil_iff, Prod.mk.injEq] at hitems
    obtain ⟨a, -, hfile, ⟨hspan, htext⟩, b, -, rfl, ⟨hspan', htext'⟩, rfl⟩ := hitems
    obtain ⟨hfixes, hdecl⟩ := applyFixIts_atOnce neighbourSource (exchange a.decl b.decl)
    have hwithin {i : Nat} {m : Member} {span : Span} (hm : file.items[i]? = some m)
        (hspan : Node.span m.decl = some span) : span.Within neighbourSource := by
      obtain ⟨span', heq, hwithin⟩ := hdecl file hparse [i] m hm
      exact Option.some.inj (heq.symm.trans hspan) ▸ hwithin
    refine ⟨file, a, b, rfl, hfile, hfixes ?_, ?_⟩
    · intro r hr span hold
      rcases List.mem_pair.1 hr with rfl | rfl
      · exact hwithin (i := 1) (by simp [hfile]) hold
      · exact hwithin (i := 0) (by simp [hfile]) hold
    · have hreplacements : replacements (exchange a.decl b.decl) =
          [⟨b.decl, a.decl⟩, ⟨a.decl, b.decl⟩] := rfl
      have hedits : edits (exchange a.decl b.decl) =
          [⟨⟨24, 35⟩, "enum A \x7b case ä \x7d"⟩, ⟨⟨0, 18⟩, "struct B \x7b\x7d"⟩] := by
        simp [edits, hreplacements, Replacement.edit?, hspan, hspan', htext, htext']
      rw [applyFixIts_of_placed (by simp [AllPlaced, hreplacements, hspan, hspan']), hedits]
      apply TextEdit.Substitutes.applyAll
      refine ⟨[⟨"", "enum A \x7b case ä \x7d", "\n// b\n", ["struct B \x7b\x7d"]⟩,
        ⟨"", "struct B \x7b\x7d", "\n", ["enum A \x7b case ä \x7d"]⟩], "", by simp, ?_, ?_, ?_⟩
      · exact List.Perm.swap _ _ _
      · decide +kernel
      · decide +kernel

end EnumForge
