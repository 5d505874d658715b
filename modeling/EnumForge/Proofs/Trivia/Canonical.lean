import EnumForge.Proofs.Trivia.Gap
import EnumForge.Proofs.Trivia.Indent
import EnumForge.Proofs.Trivia.Merging
import Mathlib.Data.List.Chain

/-!
# The one representation of a text

However trivia is put together, no two neighbours are blanks of the same kind.  So pushing the
characters of its text one by one builds it again, and the text of trivia without comments has no
other representation.
-/

namespace EnumForge

/-- Blanks are at least one. -/
def TriviaPiece.IsPositive : TriviaPiece → Prop
  | spaces n | tabs n | newlines n | carriageReturns n => 0 < n
  | lineComment _ | blockComment _ | byteOrderMark => True

theorem TriviaPiece.isPositive_of_merge? {p q merged : TriviaPiece}
    (h : q.merge? p = some merged) (hp : p.IsPositive) : merged.IsPositive := by
  cases q <;> cases p <;> simp [merge?] at h <;> subst h <;> exact Nat.add_pos_right _ hp

namespace Trivia

/-! ### What is done to trivia -/

/-- A step that goes on from the trivia at hand or starts anew. -/
inductive Step where
  | push (p : TriviaPiece)
  | pushIndent (indent : String)
  | trim
  | spaces (n : Nat)
  | newlines (n : Nat)
  | newlinesIndent (n : Nat) (indent : String)
  | ofPieces (ps : List TriviaPiece)

namespace Step

def run (t : Trivia) : Step → Trivia
  | push p => t.push p
  | pushIndent indent => t.pushIndent indent
  | trim => t.trimmed
  | spaces n => Trivia.spaces n
  | newlines n => Trivia.newlines n
  | newlinesIndent n indent => Trivia.newlinesIndent n indent
  | ofPieces ps => Trivia.ofPieces ps

/-- No step brings blanks that are none. -/
def IsPositive : Step → Prop
  | push p => p.IsPositive
  | ofPieces ps => ∀ p ∈ ps, p.IsPositive
  | spaces n | newlines n | newlinesIndent n _ => 0 < n
  | pushIndent _ | trim => True

end Step

/-- What the steps make of no trivia at all. -/
def ofSteps (steps : List Step) : Trivia := steps.foldl Step.run empty

/-! ### What every step keeps -/

/-- No two neighbours are blanks of the same kind, and no blanks are none. -/
structure Canonical (t : Trivia) : Prop where
  apart : t.pieces.IsChain TriviaPiece.Apart
  positive : ∀ p ∈ t.pieces, p.IsPositive

namespace Canonical

variable {t : Trivia}

theorem empty : Trivia.empty.Canonical := ⟨.nil, by simp [Trivia.empty]⟩

theorem push (h : t.Canonical) {p : TriviaPiece} (hp : p.IsPositive) : (t.push p).Canonical := by
  obtain ⟨ps⟩ := t
  obtain rfl | ⟨init, q, rfl⟩ := List.eq_nil_or_concat' ps
  · exact ⟨.singleton p, by simpa [Trivia.push, pushPiece] using hp⟩
  obtain ⟨hinit, -, hlast⟩ := List.isChain_append.1 h.apart
  obtain ⟨hinitpos, hqpos⟩ := List.forall_mem_append.1 h.positive
  cases hmerge : q.merge? p with
  | none =>
    have hpush : (Trivia.mk (init ++ [q])).push p = ⟨init ++ [q] ++ [p]⟩ := by
      simp only [Trivia.push, pushPiece_concat, hmerge]
    rw [hpush]
    refine ⟨List.isChain_append.2 ⟨h.apart, .singleton p, ?_⟩,
      List.forall_mem_append.2 ⟨h.positive, List.forall_mem_singleton.2 hp⟩⟩
    simpa using TriviaPiece.merge?_eq_none_iff.1 hmerge
  | some merged =>
    have hpush : (Trivia.mk (init ++ [q])).push p = ⟨init ++ [merged]⟩ := by
      simp only [Trivia.push, pushPiece_concat, hmerge]
    have hpositive := TriviaPiece.isPositive_of_merge? hmerge hp
    rw [hpush]
    refine ⟨List.isChain_append.2 ⟨hinit, .singleton merged, ?_⟩,
      List.forall_mem_append.2 ⟨hinitpos, List.forall_mem_singleton.2 hpositive⟩⟩
    -- The merged piece is of the kind of the piece that it takes the place of.
    intro r hr s hs
    obtain rfl : merged = s := by simpa using hs
    have hapart := hlast r hr q (by simp)
    rwa [TriviaPiece.Apart, ← (TriviaPiece.blank?_of_merge? hmerge).1] at hapart

theorem foldl_push {ps : List TriviaPiece} (h : t.Canonical) (hps : ∀ p ∈ ps, p.IsPositive) :
    (ps.foldl Trivia.push t).Canonical := by
  induction ps generalizing t with
  | nil => exact h
  | cons p ps ih =>
    obtain ⟨hp, hps⟩ := List.forall_mem_cons.1 hps
    exact ih (h.push hp) hps

theorem pushBlank (h : t.Canonical) (c : Char) : (t.pushBlank c).Canonical := by
  unfold Trivia.pushBlank
  split
  · exact h.push (p := .spaces 1) Nat.one_pos
  · exact h.push (p := .tabs 1) Nat.one_pos
  · exact h

theorem pushIndent (h : t.Canonical) (indent : String) : (t.pushIndent indent).Canonical := by
  unfold Trivia.pushIndent
  induction indent.toList generalizing t with
  | nil => exact h
  | cons c cs ih => exact ih (h.pushBlank c)

theorem of_prefix (h : t.Canonical) {ps : List TriviaPiece} (hps : ps <+: t.pieces) :
    (Trivia.mk ps).Canonical where
  apart := List.IsChain.prefix h.apart hps
  positive p hp := h.positive p (hps.subset hp)

end Canonical

/-! ### Trimming -/

theorem trimmed_append_takeWhile (t : Trivia) :
    t.trimmed.pieces ++ (t.pieces.reverse.takeWhile TriviaPiece.isBlank).reverse = t.pieces := by
  rw [trimmed, ← List.reverse_append, List.takeWhile_append_dropWhile, List.reverse_reverse]

theorem trimmed_isPrefix (t : Trivia) : t.trimmed.pieces <+: t.pieces :=
  ⟨_, t.trimmed_append_takeWhile⟩

theorem isBlank_getLast?_trimmed (t : Trivia) :
    ∀ p ∈ t.trimmed.pieces.getLast?, p.isBlank = false := by
  intro p hp
  rw [trimmed, List.getLast?_reverse, Option.mem_def] at hp
  have hstop := List.head?_dropWhile_not TriviaPiece.isBlank t.pieces.reverse
  rw [hp] at hstop
  simpa using hstop

/-- A start of the pieces that ends in no blank lies in what trimming leaves. -/
theorem isPrefix_trimmed {t : Trivia} {ps : List TriviaPiece} (hps : ps <+: t.pieces)
    (hlast : ∀ p ∈ ps.getLast?, p.isBlank = false) : ps <+: t.trimmed.pieces := by
  by_cases hle : ps.length ≤ t.trimmed.pieces.length
  · exact List.prefix_of_prefix_length_le hps t.trimmed_isPrefix hle
  -- Otherwise the start goes on into the blanks at the end.
  obtain ⟨blanks, rfl⟩ :=
    List.prefix_of_prefix_length_le t.trimmed_isPrefix hps (Nat.le_of_not_le hle)
  have hne : blanks ≠ [] := by
    rintro rfl
    simp at hle
  have hblanks : blanks <+: (t.pieces.reverse.takeWhile TriviaPiece.isBlank).reverse := by
    rwa [← List.prefix_append_right_inj t.trimmed.pieces, t.trimmed_append_takeWhile]
  have hblank : (blanks.getLast hne).isBlank = true := by
    have hmem := hblanks.subset (List.getLast_mem hne)
    exact List.mem_takeWhile_imp (List.mem_reverse.1 hmem)
  have hend := hlast (blanks.getLast hne) (by
    rw [List.getLast?_append_of_ne_nil _ hne, List.getLast?_eq_getLast_of_ne_nil hne]
    rfl)
  rw [hblank] at hend
  cases hend

/-! ### Steps and runs -/

theorem Canonical.step {t : Trivia} (h : t.Canonical) {step : Step} (hstep : step.IsPositive) :
    (step.run t).Canonical := by
  cases step with
  | push p => exact h.push hstep
  | pushIndent indent => exact h.pushIndent indent
  | trim => exact h.of_prefix t.trimmed_isPrefix
  | spaces n => exact Canonical.empty.push (p := .spaces n) hstep
  | newlines n => exact Canonical.empty.push (p := .newlines n) hstep
  | newlinesIndent n indent =>
    exact (Canonical.empty.push (p := .newlines n) hstep).pushIndent indent
  | ofPieces ps => exact Canonical.empty.foldl_push hstep

theorem Canonical.run {t : Trivia} (h : t.Canonical) {steps : List Step}
    (hsteps : ∀ step ∈ steps, step.IsPositive) : (steps.foldl Step.run t).Canonical := by
  induction steps generalizing t with
  | nil => exact h
  | cons step steps ih =>
    obtain ⟨hstep, hsteps⟩ := List.forall_mem_cons.1 hsteps
    exact ih (h.step hstep) hsteps

theorem canonical_ofSteps {steps : List Step} (h : ∀ step ∈ steps, step.IsPositive) :
    (ofSteps steps).Canonical := Canonical.empty.run h

/-! ### The text tells the pieces -/

/-- What a single character of trivia without comments is read as. -/
def pieceOfChar : Char → TriviaPiece
  | ' ' => .spaces 1
  | '\t' => .tabs 1
  | '\n' => .newlines 1
  | '\r' => .carriageReturns 1
  | _ => .byteOrderMark

/-- Pieces that amount to one are pushed as that one. -/
theorem push_push_of_merge? (t : Trivia) {p q merged : TriviaPiece}
    (h : p.merge? q = some merged) : (t.push p).push q = t.push merged := by
  obtain ⟨ps⟩ := t
  obtain rfl | ⟨init, r, rfl⟩ := List.eq_nil_or_concat' ps
  · simp [push, pushPiece, h]
  have hassoc := TriviaPiece.merge?_assoc r p q
  rw [h, Option.bind_some] at hassoc
  cases hmerge : r.merge? p with
  | none =>
    rw [hmerge, Option.bind_none] at hassoc
    simp only [push, pushPiece_concat, hmerge, h, ← hassoc]
  | some s =>
    rw [hmerge, Option.bind_some] at hassoc
    -- What `p` was merged into is of its kind, so `q` is merged into that as well.
    have hsome : s.merge? q ≠ none := by
      rw [Ne, TriviaPiece.merge?_eq_none_iff, TriviaPiece.Apart,
        (TriviaPiece.blank?_of_merge? hmerge).2, ← TriviaPiece.Apart,
        ← TriviaPiece.merge?_eq_none_iff, h]
      exact Option.some_ne_none merged
    obtain ⟨all, hall⟩ := Option.ne_none_iff_exists'.1 hsome
    simp only [push, pushPiece_concat, hmerge, ← hassoc, hall]

/-- Blanks may be pushed one by one. -/
theorem foldl_push_replicate {blanks : Nat → TriviaPiece}
    (hblanks : ∀ n, (blanks n).merge? (blanks 1) = some (blanks (n + 1))) (t : Trivia) (n : Nat) :
    (List.replicate (n + 1) (blanks 1)).foldl push t = t.push (blanks (n + 1)) := by
  induction n with
  | zero => rfl
  | succ n ih =>
    rw [List.replicate_succ', List.foldl_append, ih]
    exact push_push_of_merge? t (hblanks (n + 1))

theorem foldl_push_text (t : Trivia) {p : TriviaPiece} (hp : p.IsPositive)
    (hcomment : p.isComment = false) :
    (p.text.toList.map pieceOfChar).foldl push t = t.push p := by
  have hrun {n : Nat} {c : Char} {blanks : Nat → TriviaPiece} (hn : 0 < n)
      (hc : pieceOfChar c = blanks 1)
      (hblanks : ∀ n, (blanks n).merge? (blanks 1) = some (blanks (n + 1))) :
      ((List.replicate n c).map pieceOfChar).foldl push t = t.push (blanks n) := by
    obtain ⟨n, rfl⟩ := Nat.exists_eq_succ_of_ne_zero hn.ne'
    rw [List.map_replicate, hc]
    exact foldl_push_replicate hblanks t n
  cases p with
  | spaces n | tabs n | newlines n | carriageReturns n =>
    rw [TriviaPiece.text, String.toList_ofList]
    exact hrun hp rfl fun _ ↦ rfl
  | lineComment text | blockComment text => simp [TriviaPiece.isComment] at hcomment
  | byteOrderMark => rfl

theorem foldl_push_chars (t : Trivia) {ps : List TriviaPiece} (hps : ∀ p ∈ ps, p.IsPositive)
    (hcomment : ∀ p ∈ ps, p.isComment = false) :
    ((chars ps).map pieceOfChar).foldl push t = ps.foldl push t := by
  induction ps generalizing t with
  | nil => rfl
  | cons p ps ih =>
    obtain ⟨hp, hps⟩ := List.forall_mem_cons.1 hps
    obtain ⟨hpcomment, hcomment⟩ := List.forall_mem_cons.1 hcomment
    rw [chars_cons, List.map_append, List.foldl_append, foldl_push_text t hp hpcomment,
      ih _ hps hcomment, List.foldl_cons]

/-- Pieces that keep apart are pushed as they are. -/
theorem ofPieces_of_isChain {ps : List TriviaPiece} (h : ps.IsChain TriviaPiece.Apart) :
    ofPieces ps = ⟨ps⟩ := by
  induction ps using List.reverseRecOn with
  | nil => rfl
  | append_singleton ps p ih =>
    obtain ⟨hps, -, hlast⟩ := List.isChain_append.1 h
    rw [ofPieces_concat, ih hps]
    obtain rfl | ⟨init, q, rfl⟩ := List.eq_nil_or_concat' ps
    · rfl
    have hmerge := TriviaPiece.merge?_eq_none_iff.2 (hlast q (by simp) p (by simp))
    simp only [push, pushPiece_concat, hmerge]

/-- Trivia without comments is built again from the characters of its text. -/
theorem Canonical.ofPieces_text {t : Trivia} (h : t.Canonical)
    (hcomment : ∀ p ∈ t.pieces, p.isComment = false) :
    ofPieces (t.text.toList.map pieceOfChar) = t := by
  have htext : t.text.toList = chars t.pieces := by
    rw [text, String.toList_join, List.flatMap_map]
    rfl
  rw [htext, ofPieces, foldl_push_chars _ h.positive hcomment]
  exact ofPieces_of_isChain h.apart

/-! ### Trivia however it is put together -/

/-- What trimming leaves is the longest start of the pieces that ends in no blank. -/
structure TrimsLongest (t : Trivia) : Prop where
  isPrefix : t.trimmed.pieces <+: t.pieces
  last : ∀ p ∈ t.trimmed.pieces.getLast?, p.isBlank = false
  longest : ∀ ps, ps <+: t.pieces → (∀ p ∈ ps.getLast?, p.isBlank = false) →
    ps <+: t.trimmed.pieces
  trimmed_trimmed : t.trimmed.trimmed = t.trimmed

/-- How trivia, its pieces and its text belong together. -/
structure Regular (t : Trivia) : Prop where
  apart : t.pieces.IsChain TriviaPiece.Apart
  text_push : ∀ p, (t.push p).text = t.text ++ p.text
  trims : t.TrimsLongest
  /-- Without comments, the text is that of no other trivia. -/
  unique : ∀ steps, (∀ step ∈ steps, step.IsPositive) →
    (∀ p ∈ t.pieces, p.isComment = false) → (∀ p ∈ (ofSteps steps).pieces, p.isComment = false) →
    (ofSteps steps).text = t.text → ofSteps steps = t

/-- Trivia is regular whatever steps put it together, and the indentation behind line breaks is
found again. -/
theorem regular_ofSteps {steps : List Step} (h : ∀ step ∈ steps, step.IsPositive) :
    (ofSteps steps).Regular ∧ ∀ n indent, 0 < n →
      (newlinesIndent n indent).indentation =
        some (String.ofList (indent.toList.filter isIndentChar)) := by
  have hcanonical := canonical_ofSteps h
  refine ⟨⟨hcanonical.apart, text_push _, ?_, ?_⟩, fun n indent _ ↦
    indentation_newlinesIndent n indent⟩
  · exact ⟨trimmed_isPrefix _, isBlank_getLast?_trimmed _, fun _ ↦ isPrefix_trimmed,
      trimmed_trimmed _⟩
  · intro others hothers hcomment hcomment' htext
    rw [← hcanonical.ofPieces_text hcomment,
      ← (canonical_ofSteps hothers).ofPieces_text hcomment', htext]

/-- Line breaks and an indentation of both kinds, a comment with blanks behind it that go again, a
line break of two characters, and blanks pushed one by one. -/
def assembly : List Step :=
  [.newlinesIndent 2 " x\t ", .push (.lineComment "// é"), .push (.spaces 1), .push (.tabs 2),
    .push (.carriageReturns 1), .trim, .push (.carriageReturns 1), .push (.newlines 1),
    .push (.newlines 2), .pushIndent "  -\t"]

theorem regular_assembly :
    (∀ step ∈ assembly, step.IsPositive) ∧
    (ofSteps assembly).pieces = [.newlines 2, .spaces 1, .tabs 1, .spaces 1, .lineComment "// é",
      .carriageReturns 1, .newlines 3, .spaces 2, .tabs 1] ∧
    (ofSteps assembly).Regular ∧
    (newlinesIndent 2 " x\t ").indentation = some " \t " := by
  have hpositive : ∀ step ∈ assembly, step.IsPositive := by
    simp [assembly, Step.IsPositive, TriviaPiece.IsPositive]
  obtain ⟨hregular, hindent⟩ := regular_ofSteps hpositive
  exact ⟨hpositive, by decide +kernel, hregular, hindent 2 " x\t " Nat.two_pos⟩

end Trivia

end EnumForge
