/-!
# Searching in character lists

Splitting a text at the first occurrence of a pattern.  Nothing is lost: the three parts put
together again are the text.
-/

namespace EnumForge.Text

/-- The text before the first occurrence of `pattern`, and the text after that occurrence. -/
def splitAtFirst? (pattern : List Char) : List Char → Option (List Char × List Char)
  | [] => if pattern.isEmpty then some ([], []) else none
  | c :: cs =>
    if pattern.isPrefixOf (c :: cs) then some ([], (c :: cs).drop pattern.length)
    else (splitAtFirst? pattern cs).map fun (before, after) ↦ (c :: before, after)

theorem drop_of_isPrefixOf {pattern cs : List Char} (h : pattern.isPrefixOf cs = true) :
    pattern ++ cs.drop pattern.length = cs := by
  obtain ⟨rest, rfl⟩ := List.isPrefixOf_iff_prefix.1 h
  simp

theorem append_of_splitAtFirst? {pattern cs before after : List Char}
    (h : splitAtFirst? pattern cs = some (before, after)) :
    before ++ (pattern ++ after) = cs := by
  induction cs generalizing before after with
  | nil =>
    simp only [splitAtFirst?] at h
    split at h
    · simp_all
    · simp at h
  | cons c cs ih =>
    simp only [splitAtFirst?] at h
    split at h
    next hp =>
      simp only [Option.some.injEq, Prod.mk.injEq] at h
      obtain ⟨rfl, rfl⟩ := h
      simpa using drop_of_isPrefixOf hp
    next =>
      obtain ⟨⟨b, a⟩, hs, he⟩ := Option.map_eq_some_iff.1 h
      simp only [Prod.mk.injEq] at he
      obtain ⟨rfl, rfl⟩ := he
      simp [ih hs]

/-- `cs` without its longest suffix of characters equal to `c`. -/
def trimEnd (c : Char) (cs : List Char) : List Char :=
  (cs.reverse.dropWhile (· == c)).reverse

theorem trimEnd_isPrefix (c : Char) (cs : List Char) : trimEnd c cs <+: cs := by
  have h : cs.reverse.dropWhile (· == c) <:+ cs.reverse := List.dropWhile_suffix _
  simpa [trimEnd] using List.reverse_prefix.2 h

end EnumForge.Text
