import EnumForge.AppEnum.Settings
import EnumForge.Expansion
import EnumForge.Proofs.Expansion.Removal
import Mathlib.Data.List.DropRight
import Mathlib.Logic.Function.Iterate

/-!
# Trivia handed down by removed attributes

A group from which attributes are taken keeps everything else, up to the trivia before some of its
tokens.  If each of these attributes is followed by a token that starts a line, then what stood
before a run of them stands before the token behind the run, so the comments above a declaration
stay above it.
-/

namespace EnumForge

open Node (mapTokens)

namespace Attribute

variable {test : String → Bool}

/-- The attributes whose name fails the test. -/
def kept (test : String → Bool) (as : List Attribute) : List Attribute :=
  as.filter fun a ↦ !test a.name

/-- The trivia before a token that stood behind `before`, with `own` before it: that of the first
attribute in the run of removed ones that `before` ends with. -/
def handedDown (test : String → Bool) (before : List Attribute) (own : Trivia) : Trivia :=
  ((before.rtakeWhile fun a ↦ test a.name).head?.map Node.leading).getD own

theorem handedDown_nil (own : Trivia) : handedDown test [] own = own := by simp [handedDown]

theorem handedDown_concat_kept {a : Attribute} (h : test a.name = false) (before : List Attribute)
    (own : Trivia) : handedDown test (before ++ [a]) own = own := by
  simp [handedDown, h]

theorem handedDown_concat_removed {a : Attribute} (h : test a.name = true)
    (before : List Attribute) (own : Trivia) :
    handedDown test (before ++ [a]) own = handedDown test before (Node.leading a) := by
  have hrun : (before ++ [a]).rtakeWhile (fun a ↦ test a.name) =
      before.rtakeWhile (fun a ↦ test a.name) ++ [a] := List.rtakeWhile_concat_pos _ _ _ h
  rw [handedDown, hrun, handedDown, List.head?_append]
  cases (before.rtakeWhile fun a ↦ test a.name).head? <;> rfl

theorem tokens_kept_concat (before : List Attribute) (a : Attribute) :
    Node.tokens (kept test (before ++ [a])) = Node.tokens (kept test before) ++
      if test a.name then [] else Node.tokens a := by
  cases h : test a.name <;> simp [kept, h, Node.tokens]

/-! ### One pass where lines follow -/

/-- A token that starts a line follows each attribute whose name passes the test, where `rest`
stands behind the attributes. -/
def LinesFollow (test : String → Bool) : List Attribute → List Token → Prop
  | [], _ => True
  | a :: as, rest =>
    (test a.name = true → ∃ t ∈ (Node.tokens as ++ rest).head?, t.startsLine = true) ∧
      LinesFollow test as rest

instance decidableLinesFollow (as : List Attribute) (rest : List Token) :
    Decidable (LinesFollow test as rest) :=
  match as with
  | [] => isTrue trivial
  | _ :: as =>
    have := decidableLinesFollow as rest
    inferInstanceAs (Decidable (_ ∧ _))

theorem linesFollow_iff {as : List Attribute} {rest : List Token} :
    LinesFollow test as rest ↔ ∀ before a after, as = before ++ a :: after → test a.name = true →
      ∃ t ∈ (Node.tokens after ++ rest).head?, t.startsLine = true := by
  induction as with
  | nil => simp [LinesFollow]
  | cons b as ih =>
    rw [LinesFollow, ih]
    constructor
    · rintro ⟨hb, has⟩ before a after hsplit ha
      cases before with
      | nil =>
        obtain ⟨rfl, rfl⟩ := List.cons.inj hsplit
        exact hb ha
      | cons c before => exact has before a after (List.cons.inj hsplit).2 ha
    · intro h
      exact ⟨h [] b as rfl, fun before a after hsplit ↦ h (b :: before) a after (by simp [hsplit])⟩

theorem linesFollow_of_append {before as : List Attribute} {rest : List Token}
    (h : LinesFollow test (before ++ as) rest) : LinesFollow test as rest := by
  induction before with
  | nil => exact h
  | cons a before ih => exact ih h.2

/-- What is left starts with the trivia that everything started with. -/
theorem leading_strip {as : List Attribute} {rest : List Token} (h : LinesFollow test as rest) :
    (strip test as rest).head?.map Token.leading =
      (Node.tokens as ++ rest).head?.map Token.leading := by
  induction as with
  | nil => rfl
  | cons a as ih =>
    obtain ⟨hnext, has⟩ := h
    rw [strip]
    split
    next htest =>
      obtain ⟨t, ht, hline⟩ := hnext htest
      have hhead := ih has
      rw [Option.mem_def.1 ht, Option.map_some] at hhead
      obtain ⟨u, hu, hleading⟩ := Option.map_eq_some_iff.1 hhead
      have hstart : u.startsLine = true := by rwa [Token.startsLine, hleading]
      rw [List.head?_modifyHead, hu, Option.map_some, Token.inheriting, if_pos hstart]
      rfl
    next => rfl

/-- Behind `before`, the pass leaves what it makes of the rest, with the trivia handed down. -/
theorem strip_behind {before as : List Attribute} {rest : List Token}
    (h : LinesFollow test (before ++ as) rest) :
    ∃ ts, ts.length = (Node.tokens (kept test before)).length ∧
      strip test (before ++ as) rest = ts ++ (strip test as rest).modifyHead fun t ↦
        t.withLeading (handedDown test before t.leading) := by
  induction before using List.reverseRecOn generalizing as with
  | nil =>
    refine ⟨[], rfl, ?_⟩
    cases hts : strip test as rest with
    | nil => simp [hts]
    | cons t ts => simp [hts, handedDown_nil, Token.withLeading]
  | append_singleton before a ih =>
    rw [List.append_assoc, List.singleton_append] at h ⊢
    obtain ⟨ts, hlen, hstrip⟩ := ih h
    rw [hstrip, tokens_kept_concat, strip]
    cases htest : test a.name with
    | false =>
      refine ⟨ts ++ (Node.tokens a).modifyHead fun t ↦
        t.withLeading (handedDown test before t.leading), by simp [hlen], ?_⟩
      rw [if_neg (by simp), List.append_assoc]
      cases strip test as rest with
      | nil => rfl
      | cons t us => rw [List.modifyHead_cons, handedDown_concat_kept htest]; rfl
    | true =>
      refine ⟨ts, by simp [hlen], ?_⟩
      obtain ⟨t, ht, hline⟩ := (linesFollow_of_append h).1 htest
      have hhead := leading_strip (linesFollow_of_append h).2
      rw [if_pos rfl]
      cases hus : strip test as rest with
      | nil => simp
      | cons u us =>
        rw [hus, List.head?_cons, Option.mem_def.1 ht] at hhead
        have hstart : u.startsLine = true := by
          rw [Token.startsLine, Option.some.inj hhead]
          exact hline
        rw [List.modifyHead_cons, List.modifyHead_cons, List.modifyHead_cons, Token.inheriting,
          if_pos hstart, handedDown_concat_removed htest]
        rfl

end Attribute

namespace Decl

open Attribute (kept handedDown)

variable {test : String → Bool}

/-! ### The rounds of the removal -/

theorem mapTokens_kept (as : List Attribute) :
    mapTokens Token.unled (kept test as) = kept test (mapTokens Token.unled as) := by
  rw [Node.mapTokens_list, Node.mapTokens_list, kept, kept, List.filter_map]
  rfl

/-- The declaration with its kept attributes, as far as leading trivia does not matter. -/
theorem mapTokens_withAttributes_kept (d : Decl) :
    mapTokens Token.unled (d.withAttributes (kept test d.attributes)) =
      (mapTokens Token.unled d).withAttributes
        (kept test (mapTokens Token.unled d).attributes) := by
  rw [mapTokens_withAttributes, mapTokens_kept, attributes_mapTokens]

/-- One round leaves the kept attributes and everything behind the attributes. -/
theorem mapTokens_removeFirst {d : Decl} (h : d.attached test ≠ []) :
    mapTokens Token.unled
        ((d.removeFirst test).withAttributes (kept test (d.removeFirst test).attributes)) =
      mapTokens Token.unled (d.withAttributes (kept test d.attributes)) := by
  obtain ⟨as, a, bs, hd, -, ha, hremove⟩ := exists_of_removeFirst h
  have hkept : kept test (as ++ a :: bs) = kept test (as ++ bs) := by simp [kept, ha]
  rw [mapTokens_withAttributes_kept, hremove, mapTokens_removeAttribute hd,
    ← mapTokens_withAttributes_kept, attributes_withAttributes, withAttributes_withAttributes, hd,
    hkept]

theorem removeAttached_eq_iterate (test : String → Bool) (d : Decl) :
    d.removeAttached test = (removeFirst test)^[(d.attached test).length] d :=
  List.foldl_const _ _ _

/-- Every round takes one attribute off. -/
theorem length_attached_iterate {d : Decl} {k : Nat} (hk : k ≤ (d.attached test).length) :
    (((removeFirst test)^[k] d).attached test).length + k = (d.attached test).length := by
  induction k generalizing d with
  | zero => rfl
  | succ k ih =>
    have hne : d.attached test ≠ [] := by
      rintro hnil
      simp [hnil] at hk
    have hcount := (stripped_removeFirst hne).2
    have hrest := ih (d := d.removeFirst test) (by omega)
    rw [Function.iterate_succ_apply]
    omega

theorem attached_iterate_ne_nil {d : Decl} {k : Nat} (hk : k < (d.attached test).length) :
    ((removeFirst test)^[k] d).attached test ≠ [] := by
  intro hnil
  have hcount := length_attached_iterate (Nat.le_of_lt hk)
  rw [hnil, List.length_nil] at hcount
  omega

theorem attached_removeAttached (test : String → Bool) (d : Decl) :
    (d.removeAttached test).attached test = [] := by
  have hcount := length_attached_iterate (Nat.le_refl (d.attached test).length)
  rw [removeAttached_eq_iterate]
  exact List.length_eq_zero_iff.1 (by omega)

theorem kept_of_attached_eq_nil {d : Decl} (h : d.attached test = []) :
    kept test d.attributes = d.attributes := by
  refine List.filter_eq_self.2 fun a ha ↦ ?_
  simpa using List.filter_eq_nil_iff.1 h a ha

/-- Nothing changes but attributes and leading trivia. -/
theorem mapTokens_removeAttached (test : String → Bool) (d : Decl) :
    mapTokens Token.unled (d.removeAttached test) =
      mapTokens Token.unled (d.withAttributes (kept test d.attributes)) := by
  have hrounds (k : Nat) : ∀ d : Decl, k ≤ (d.attached test).length →
      mapTokens Token.unled (((removeFirst test)^[k] d).withAttributes
          (kept test ((removeFirst test)^[k] d).attributes)) =
        mapTokens Token.unled (d.withAttributes (kept test d.attributes)) := by
    induction k with
    | zero => exact fun d _ ↦ rfl
    | succ k ih =>
      intro d hk
      have hne : d.attached test ≠ [] := by
        rintro hnil
        simp [hnil] at hk
      have hcount := (stripped_removeFirst hne).2
      rw [Function.iterate_succ_apply, ih _ (by omega), mapTokens_removeFirst hne]
  rw [← hrounds _ d (Nat.le_refl _), ← removeAttached_eq_iterate,
    kept_of_attached_eq_nil (attached_removeAttached test d), withAttributes_attributes]

/-! ### What is left -/

/-- In the declaration, a token that starts a line follows each attribute whose name passes the
test. -/
def LinesFollow (test : String → Bool) (d : Decl) : Prop :=
  ∀ before a after, d.attributes = before ++ a :: after → test a.name = true →
    ∃ t ∈ (Node.tokens d)[(Node.tokens (before ++ [a])).length]?, t.startsLine = true

theorem linesFollow_iff {d : Decl} :
    d.LinesFollow test ↔ Attribute.LinesFollow test d.attributes d.afterAttributes := by
  have hnext {before after : List Attribute} {a : Attribute}
      (h : d.attributes = before ++ a :: after) :
      (Node.tokens d)[(Node.tokens (before ++ [a])).length]? =
        (Node.tokens after ++ d.afterAttributes).head? := by
    have hsplit : Node.tokens d =
        Node.tokens (before ++ [a]) ++ (Node.tokens after ++ d.afterAttributes) := by
      rw [tokens_eq, h]
      simp [Node.tokens]
    rw [hsplit, List.getElem?_append_right (Nat.le_refl _), Nat.sub_self, List.head?_eq_getElem?]
  rw [Attribute.linesFollow_iff]
  constructor
  · intro h before a after hd ha
    exact hnext hd ▸ h before a after hd ha
  · intro h before a after hd ha
    exact (hnext hd).symm ▸ h before a after hd ha

/-- `d'` is `d` without the attributes whose name passes the test; the trivia before a run of them
stands before the token behind the run. -/
structure Freed (test : String → Bool) (d d' : Decl) : Prop where
  attached_eq_nil : d'.attached test = []
  attributes : d'.attributes.map (mapTokens Token.unled) =
    (kept test d.attributes).map (mapTokens Token.unled)
  leading : Node.leading d' = Node.leading d
  tokens : (Node.tokens d').map Token.unled =
    (Node.tokens (kept test d.attributes) ++ d.afterAttributes).map Token.unled
  /-- A kept attribute stands behind the kept attributes before it. -/
  keeps : ∀ before a after, d.attributes = before ++ a :: after → test a.name = false →
    (Node.tokens a).modifyHead (fun t ↦ t.withLeading (handedDown test before t.leading)) <+:
      (Node.tokens d').drop (Node.tokens (kept test before)).length
  /-- The tokens after the attributes stand behind all kept attributes. -/
  rest : (Node.tokens d').drop (Node.tokens (kept test d.attributes)).length =
    d.afterAttributes.modifyHead fun t ↦
      t.withLeading (handedDown test d.attributes t.leading)

theorem freed_removeAttached {d : Decl} (h : d.LinesFollow test) :
    d.Freed test (d.removeAttached test) := by
  have hlines := linesFollow_iff.1 h
  have hunled := mapTokens_removeAttached test d
  have htokens : Node.tokens (d.removeAttached test) =
      Attribute.strip test d.attributes d.afterAttributes := tokens_removeAttached test d
  refine ⟨attached_removeAttached test d, ?_, ?_, ?_, ?_, ?_⟩
  · rw [← Node.mapTokens_list, ← Node.mapTokens_list, ← attributes_mapTokens, hunled,
      attributes_mapTokens, attributes_withAttributes]
  · rw [Node.leading, htokens, Attribute.leading_strip hlines, ← tokens_eq, Node.leading]
  · rw [htokens, Attribute.map_unled_strip]
    rfl
  · intro before a after hd ha
    rw [htokens, hd]
    rw [hd] at hlines
    obtain ⟨ts, hlen, hstrip⟩ := Attribute.strip_behind hlines
    rw [hstrip, ← hlen, List.drop_left, Attribute.strip, if_neg (by simp [ha])]
    exact List.prefix_append _ _
  · rw [htokens]
    rw [← List.append_nil d.attributes] at hlines
    obtain ⟨ts, hlen, hstrip⟩ := Attribute.strip_behind hlines
    rw [List.append_nil] at hstrip
    rw [hstrip, ← hlen, List.drop_left, Attribute.strip]

end Decl

open Expansion (expandItem) in
/-- The attributes of a group that name a generator are taken off in rounds until none is left.
If a token that starts a line follows each of them, only they are gone: every other token stays
with its kind, text, place and trailing trivia, and also with its leading trivia, unless it
follows a run of them. -/
theorem freed_expandItem (r : Registry) {m : Member} (hgroup : m.decl.isGroup = true)
    (hlines : m.decl.LinesFollow r.contains) :
    ∃ rounds d', (expandItem r m).1.head? = some ⟨d', m.semicolon⟩ ∧
      d' = (Decl.removeFirst r.contains)^[rounds] m.decl ∧
      (∀ k < rounds, ((Decl.removeFirst r.contains)^[k] m.decl).attached r.contains ≠ []) ∧
      m.decl.Freed r.contains d' := by
  refine ⟨(m.decl.attached r.contains).length, m.decl.removeAttached r.contains, ?_,
    Decl.removeAttached_eq_iterate _ _, fun k hk ↦ Decl.attached_iterate_ne_nil hk,
    Decl.freed_removeAttached hlines⟩
  rw [expandItem, if_pos hgroup]
  rfl

/-- A run of two attributes under a comment, and one more behind an attribute that stays. -/
def interleavedSource : String :=
  "// above\n@AppEnumGen // first\n@AppEnumGenFixIt\n@objc\n  @AppEnumGen\npublic enum A \x7b\x7d\n"

theorem freed_interleavedSource : ∃ file m d', parseSource interleavedSource = .ok file ∧
    file.items = [m] ∧ m.decl.isGroup = true ∧
    m.decl.LinesFollow (Settings.registry {}).contains ∧
    (Expansion.expandItem (Settings.registry {}) m).1.head? = some ⟨d', m.semicolon⟩ ∧
    m.decl.Freed (Settings.registry {}).contains d' ∧
    Node.source d' = "// above\n@objc\n  public enum A \x7b\x7d" := by
  have hread : ((parseSource interleavedSource).toOption.any fun file ↦
      file.items.length == 1 && file.items.all fun m ↦
        m.decl.isGroup && decide (Attribute.LinesFollow (Settings.registry {}).contains
          m.decl.attributes m.decl.afterAttributes) &&
        ((Expansion.expandItem (Settings.registry {}) m).1.head?.map fun m ↦
          Node.source m.decl) == some "// above\n@objc\n  public enum A \x7b\x7d") = true := by
    decide +kernel
  cases hparse : parseSource interleavedSource with
  | error e => simp [hparse, Except.toOption] at hread
  | ok file =>
    simp only [hparse, Except.toOption, Option.any_some, Bool.and_eq_true, beq_iff_eq] at hread
    obtain ⟨hlength, hall⟩ := hread
    obtain ⟨m, hitems⟩ := List.length_eq_one_iff.1 hlength
    simp only [hitems, List.all_cons, List.all_nil, Bool.and_true, Bool.and_eq_true,
      decide_eq_true_eq, beq_iff_eq] at hall
    obtain ⟨⟨hgroup, hlines⟩, htext⟩ := hall
    have hlines := Decl.linesFollow_iff.2 hlines
    obtain ⟨_, d', hhead, -, -, hfreed⟩ := freed_expandItem (Settings.registry {}) hgroup hlines
    rw [hhead] at htext
    exact ⟨file, m, d', rfl, hitems, hgroup, hlines, hhead, hfreed, Option.some.inj htext⟩

end EnumForge
