import EnumForge.Text.Search
import Mathlib.Data.List.DropRight

/-!
# What a search depends on

A search for a pattern does not look beyond the place where it found the pattern, and the end that
is trimmed off a text is made up of the one character.
-/

namespace EnumForge.Text

/-- The text after the first occurrence may be any other text. -/
theorem splitAtFirst?_append {pattern cs before after : List Char} (hne : pattern ≠ [])
    (h : splitAtFirst? pattern cs = some (before, after)) (after' : List Char) :
    splitAtFirst? pattern (before ++ (pattern ++ after')) = some (before, after') := by
  induction cs generalizing before with
  | nil => simp [splitAtFirst?, hne] at h
  | cons c cs ih =>
    rw [splitAtFirst?] at h
    split at h
    next hp =>
      simp only [Option.some.injEq, Prod.mk.injEq] at h
      obtain ⟨rfl, -⟩ := h
      obtain ⟨p, ps, rfl⟩ := List.exists_cons_of_ne_nil hne
      have hstart : (p :: ps).isPrefixOf (p :: (ps ++ after')) = true :=
        List.isPrefixOf_iff_prefix.2 ⟨after', rfl⟩
      rw [List.nil_append, List.cons_append, splitAtFirst?, if_pos hstart]
      simp
    next hp =>
      obtain ⟨⟨b, a⟩, hs, he⟩ := Option.map_eq_some_iff.1 h
      simp only [Prod.mk.injEq] at he
      obtain ⟨rfl, rfl⟩ := he
      have hcs := append_of_splitAtFirst? hs
      -- An occurrence before the first one would lie in front of what was exchanged.
      have hnot : ¬pattern.isPrefixOf (c :: (b ++ (pattern ++ after'))) = true := by
        intro hstart
        have hlong : pattern <+: (c :: b ++ pattern) ++ after' := by
          simpa using List.isPrefixOf_iff_prefix.1 hstart
        have hshort : pattern <+: c :: b ++ pattern :=
          List.prefix_of_prefix_length_le hlong ⟨after', rfl⟩ (by simp; omega)
        refine hp (List.isPrefixOf_iff_prefix.2 (hshort.trans ?_))
        rw [← hcs]
        exact ⟨a, by simp⟩
      rw [List.cons_append, splitAtFirst?, if_neg hnot, ih hs]
      rfl

theorem exists_eq_trimEnd_append (c : Char) (cs : List Char) :
    ∃ n, cs = trimEnd c cs ++ List.replicate n c := by
  have hsplit := List.takeWhile_append_dropWhile (p := (· == c)) (l := cs.reverse)
  have hrun : cs.reverse.takeWhile (· == c) =
      List.replicate (cs.reverse.takeWhile (· == c)).length c := by
    refine List.eq_replicate_of_mem fun d hd ↦ ?_
    simpa using List.mem_takeWhile_imp hd
  refine ⟨(cs.reverse.takeWhile (· == c)).length, ?_⟩
  have hcs := congrArg List.reverse hsplit
  rw [List.reverse_append, List.reverse_reverse, hrun, List.reverse_replicate] at hcs
  exact hcs.symm

theorem trimEnd_append_replicate {c : Char} {cs : List Char} (h : trimEnd c cs = cs) (n : Nat) :
    trimEnd c (cs ++ List.replicate n c) = cs := by
  have hdrop : (List.replicate n c ++ cs.reverse).dropWhile (· == c) =
      cs.reverse.dropWhile (· == c) := by
    rw [List.dropWhile_append_of_pos]
    intro d hd
    simpa using List.eq_of_mem_replicate hd
  unfold trimEnd at h ⊢
  rw [List.reverse_append, List.reverse_replicate, hdrop, h]

theorem trimEnd_trimEnd (c : Char) (cs : List Char) : trimEnd c (trimEnd c cs) = trimEnd c cs := by
  unfold trimEnd
  rw [List.reverse_reverse, List.dropWhile_idempotent]

end EnumForge.Text
