import EnumForge.Proofs.Checked.Decl
import EnumForge.Proofs.Grammar.Conservation

/-!
# Items read with the cursor

The items of a file and of its blocks.  An item never leaves the cursor where it was: this is why
the loops over items are done, and it bounds how deep blocks can be nested.
-/

namespace EnumForge.Checked

open Grammar (Reading Reads ItemList withSemicolon atBlockEnd)

section Readers

variable (tokens : List Token)

/-- A declaration with the semicolon behind it. -/
def closed (d : Decl) (pos : Nat) : Guarded (Member × Nat) := do
  let (semicolon, pos) ← takeIf tokens .semicolon pos
  return (⟨d, semicolon⟩, pos)

mutual

def itemFrom : Nat → Nat → Guarded (Member × Nat)
  | 0, _ => fault .endless
  | fuel + 1, pos => do
    match ← opening tokens pos with
    | (.leaf d, pos) => closed tokens d pos
    | (.group head, pos) =>
      let (left, pos) ← expect tokens .leftBrace "`\x7b`" pos
      let (members, pos) ← membersFrom fuel pos
      let (right, pos) ← expect tokens .rightBrace "`\x7d`" pos
      closed tokens (head.withBlock ⟨left, members, right⟩) pos

def membersFrom : Nat → Nat → Guarded (List Member × Nat)
  | 0, _ => fault .endless
  | fuel + 1, pos => do
    let t ← current tokens pos
    if t.kind = .rightBrace ∨ t.kind = .endOfFile then return ([], pos)
    else
      let (m, pos) ← itemFrom fuel pos
      let (ms, pos) ← membersFrom fuel pos
      return (m :: ms, pos)

end

def itemsFrom : Nat → Nat → Guarded (List Member × Nat)
  | 0, _ => fault .endless
  | fuel + 1, pos => do
    if (← current tokens pos).kind = .endOfFile then return ([], pos)
    else
      let (m, pos) ← itemFrom tokens (2 * tokens.length) pos
      let (ms, pos) ← itemsFrom fuel pos
      return (m :: ms, pos)

def file : Guarded SourceFile := do
  let (items, pos) ← itemsFrom tokens tokens.length 0
  let (endOfFile, _) ← advance tokens pos
  return ⟨items, endOfFile⟩

end Readers

/-- A result within a number of steps is the result within one step more. -/
theorem itemFrom_succ_and_membersFrom_succ (tokens : List Token) (fuel : Nat) :
    (∀ pos r, itemFrom tokens fuel pos = .ok r → itemFrom tokens (fuel + 1) pos = .ok r) ∧
      ∀ pos r, membersFrom tokens fuel pos = .ok r → membersFrom tokens (fuel + 1) pos = .ok r := by
  induction fuel with
  | zero => exact ⟨by simp [itemFrom, fault], by simp [membersFrom, fault]⟩
  | succ fuel ih =>
    obtain ⟨ihItem, ihMembers⟩ := ih
    constructor
    · intro pos r h
      rw [itemFrom] at h ⊢
      obtain ⟨⟨o, after⟩, ho, h⟩ := bind_eq_ok.1 h
      rw [ho, ok_bind]
      cases o with
      | leaf d => exact h
      | group head =>
        obtain ⟨⟨left, inner⟩, hleft, h⟩ := bind_eq_ok.1 h
        obtain ⟨⟨members, last⟩, hblock, h⟩ := bind_eq_ok.1 h
        dsimp only
        rw [hleft, ok_bind]
        dsimp only
        rw [ihMembers inner _ hblock]
        exact h
    · intro pos r h
      rw [membersFrom] at h ⊢
      obtain ⟨t, ht, h⟩ := bind_eq_ok.1 h
      rw [ht, ok_bind]
      split
      next hend => rwa [if_pos hend] at h
      next hend =>
        rw [if_neg hend] at h
        obtain ⟨⟨m, after⟩, hm, h⟩ := bind_eq_ok.1 h
        obtain ⟨⟨ms, last⟩, hms, h⟩ := bind_eq_ok.1 h
        rw [ihItem pos _ hm, ok_bind]
        dsimp only
        rw [ihMembers after _ hms]
        exact h

theorem itemFrom_mono {tokens : List Token} {fuel more pos : Nat} {r : Member × Nat}
    (hle : fuel ≤ more) (h : itemFrom tokens fuel pos = .ok r) :
    itemFrom tokens more pos = .ok r := by
  induction hle with
  | refl => exact h
  | step _ ih => exact (itemFrom_succ_and_membersFrom_succ tokens _).1 pos r ih

/-! ### Single items over lists -/

/-- The items at the head of `ts`. -/
def readMembers (ts : List Token) : Reading (List Member × List Token) :=
  (Grammar.items ts).map fun list ↦ (list.members, list.rest)

/-- The item at the head of `ts`. -/
def readItem (ts : List Token) : Reading (Member × List Token) := do
  match ← Grammar.opening ts with
  | (.leaf d, rest) => return withSemicolon d rest
  | (.group head, rest) =>
    let (left, inner) ← Grammar.expect .leftBrace "`\x7b`" rest
    let (members, after) ← readMembers inner
    let (right, outer) ← Grammar.expect .rightBrace "`\x7d`" after
    return withSemicolon (head.withBlock ⟨left, members, right⟩) outer

theorem readItem_leaf {ts rest : List Token} {d : Decl}
    (h : Grammar.opening ts = .ok (.leaf d, rest)) :
    readItem ts = .ok (withSemicolon d rest) := by
  rw [readItem, h]
  rfl

theorem readItem_group {ts rest : List Token} {head : Grammar.GroupHead}
    (h : Grammar.opening ts = .ok (.group head, rest)) :
    readItem ts = do
      let (left, inner) ← Grammar.expect .leftBrace "`\x7b`" rest
      let (members, after) ← readMembers inner
      let (right, outer) ← Grammar.expect .rightBrace "`\x7d`" after
      return withSemicolon (head.withBlock ⟨left, members, right⟩) outer := by
  rw [readItem, h]
  rfl

theorem readMembers_of_ok {ts : List Token} {list : ItemList ts}
    (h : Grammar.items ts = .ok list) : readMembers ts = .ok (list.members, list.rest) := by
  rw [readMembers, h]
  rfl

theorem readMembers_of_error {ts : List Token} {e : ParseError Nat}
    (h : Grammar.items ts = .error e) : readMembers ts = .error e := by
  rw [readMembers, h]
  rfl

theorem readItem_block {ts rest inner after outer : List Token} {head : Grammar.GroupHead}
    {left right : Token} {members : List Member} (h : Grammar.opening ts = .ok (.group head, rest))
    (hleft : Grammar.expect .leftBrace "`\x7b`" rest = .ok (left, inner))
    (hblock : readMembers inner = .ok (members, after))
    (hright : Grammar.expect .rightBrace "`\x7d`" after = .ok (right, outer)) :
    readItem ts = .ok (withSemicolon (head.withBlock ⟨left, members, right⟩) outer) := by
  rw [readItem_group h, hleft, ok_bind]
  dsimp only
  rw [hblock, ok_bind]
  dsimp only
  rw [hright]
  rfl

theorem readMembers_eq (ts : List Token) :
    readMembers ts =
      if atBlockEnd ts then .ok ([], ts)
      else do
        let (m, rest) ← readItem ts
        let (ms, rest) ← readMembers rest
        return (m :: ms, rest) := by
  rw [readMembers, atBlockEnd]
  fun_cases Grammar.items ts with
  | case1 hend =>
    rw [if_pos hend]
    rfl
  | case2 hend e ho =>
    rw [if_neg hend, readItem, ho]
    rfl
  | case3 hend d rest ho e he =>
    rw [if_neg hend, readItem_leaf ho, ok_bind]
    change _ = readMembers (withSemicolon d rest).2 >>= _
    rw [readMembers_of_error he]
    rfl
  | case4 hend d rest ho ms last hle hms =>
    rw [if_neg hend, readItem_leaf ho, ok_bind]
    change _ = readMembers (withSemicolon d rest).2 >>= _
    rw [readMembers_of_ok hms]
    rfl
  | case5 hend head rest ho e he =>
    rw [if_neg hend, readItem_group ho, he]
    rfl
  | case6 hend head rest ho left inner hleft e he =>
    rw [if_neg hend, readItem_group ho, hleft, ok_bind]
    dsimp only
    rw [readMembers_of_error he]
    rfl
  | case7 hend head rest ho left inner hleft members after hle hblock e he =>
    rw [if_neg hend, readItem_group ho, hleft, ok_bind]
    dsimp only
    rw [readMembers_of_ok hblock, ok_bind]
    dsimp only
    rw [he]
    rfl
  | case8 hend head rest ho left inner hleft members after hle hblock right outer hright d e he =>
    rw [if_neg hend, readItem_block ho hleft (readMembers_of_ok hblock) hright, ok_bind]
    change _ = readMembers (withSemicolon d outer).2 >>= _
    rw [readMembers_of_error he]
    rfl
  | case9 hend head rest ho left inner hleft members after hle hblock right outer hright d ms last
      hle' hms =>
    rw [if_neg hend, readItem_block ho hleft (readMembers_of_ok hblock) hright, ok_bind]
    change _ = readMembers (withSemicolon d outer).2 >>= _
    rw [readMembers_of_ok hms]
    rfl

theorem reads_readMembers (ts : List Token) : Reads (readMembers ts) ts := by
  intro ms last h
  rw [readMembers] at h
  cases hitems : Grammar.items ts with
  | error e => simp [hitems, Except.map] at h
  | ok list =>
    rw [hitems] at h
    obtain ⟨rfl, rfl⟩ := Grammar.ok_pair_inj.1 h
    rw [Member.tokens_list]
    exact (Grammar.itemsRead_of_items hitems).tokens_append

/-- An item takes at least one token. -/
theorem append_of_readItem {ts rest : List Token} {m : Member} (h : readItem ts = .ok (m, rest)) :
    Node.tokens m ++ rest = ts ∧ rest.length < ts.length := by
  have hclosed {d : Decl} {after : List Token} (hm : withSemicolon d after = (m, rest)) :
      Node.tokens m ++ rest = d.tokens ++ after ∧ rest.length ≤ after.length := by
    have happend := Grammar.withSemicolon_append d after
    have hle := Grammar.length_withSemicolon_le d after
    rw [hm] at happend hle
    exact ⟨happend, hle⟩
  obtain ⟨⟨o, after⟩, ho, h⟩ := bind_eq_ok.1 h
  obtain ⟨happend, hlt⟩ := Grammar.append_of_opening ho
  cases o with
  | leaf d =>
    obtain ⟨hm, hle⟩ := hclosed (Except.ok.inj h)
    exact ⟨hm.trans happend, by omega⟩
  | group head =>
    obtain ⟨⟨left, inner⟩, hleft, h⟩ := bind_eq_ok.1 h
    obtain ⟨⟨members, last⟩, hblock, h⟩ := bind_eq_ok.1 h
    obtain ⟨⟨right, outer⟩, hright, h⟩ := bind_eq_ok.1 h
    obtain ⟨hm, hle⟩ := hclosed (Except.ok.inj h)
    have hinner : left :: inner = after := Grammar.reads_expect _ _ _ _ _ hleft
    have houter : right :: outer = last := Grammar.reads_expect _ _ _ _ _ hright
    have hmembers := reads_readMembers inner members last hblock
    rw [Member.tokens_list] at hmembers
    rw [← houter] at hmembers
    have hlen := congrArg List.length hmembers
    have hlen' := congrArg List.length hinner
    simp only [List.length_append, List.length_cons] at hlen hlen'
    refine ⟨?_, by omega⟩
    rw [hm, Grammar.GroupHead.tokens_withBlock, MemberBlock.tokens, ← happend, ← hinner, ← hmembers]
    simp [Grammar.Opening.tokens]

theorem fileItems_eq (ts : List Token) :
    Grammar.fileItems ts = (do
      match ← readMembers ts with
      | (ms, []) => return ms
      | (_, t :: ts) => .error (Grammar.unexpected "a declaration" (t :: ts))) := by
  rw [Grammar.fileItems, readMembers]
  rcases Grammar.items ts with e | ⟨ms, _ | ⟨t, ts⟩, hle⟩ <;> rfl

theorem fileItems_cons {t : Token} {ts : List Token} (hkind : t.kind ≠ .rightBrace) :
    Grammar.fileItems (t :: ts) = do
      let (m, rest) ← readItem (t :: ts)
      let ms ← Grammar.fileItems rest
      return m :: ms := by
  rw [fileItems_eq, readMembers_eq, if_neg (by simpa [atBlockEnd] using hkind)]
  rcases readItem (t :: ts) with e | ⟨m, rest⟩
  · rfl
  · rw [ok_bind, ok_bind]
    dsimp only
    rw [fileItems_eq]
    rcases readMembers rest with e | ⟨ms, _ | ⟨u, us⟩⟩ <;> rfl

variable {s : TokenStream} {t : Token} {ts rest : List Token} (hs : Ended s)

include hs

theorem closed_index (h : rest <:+ s.tokens) (d : Decl) :
    closed s.toList d (index s rest) = atIndex s (.ok (withSemicolon d rest)) := by
  rw [closed, takeIf_index hs h (by decide)]
  rfl

theorem atBlockEnd_iff (h : rest <:+ s.tokens) : atBlockEnd rest ↔
    (rest.head?.getD s.endOfFile).kind = .rightBrace ∨
      (rest.head?.getD s.endOfFile).kind = .endOfFile := by
  cases rest with
  | nil => simp [atBlockEnd, hs.kind_endOfFile]
  | cons t ts => simp [atBlockEnd, hs.kind_head h]

theorem itemFrom_index_of_members {fuel : Nat} (h : rest <:+ s.tokens)
    (hmembers : ∀ inner : List Token, inner <:+ rest → inner.length < rest.length →
      membersFrom s.toList fuel (index s inner) = atIndex s (readMembers inner)) :
    itemFrom s.toList (fuel + 1) (index s rest) = atIndex s (readItem rest) := by
  rw [itemFrom, opening_index hs h]
  refine atIndex_bind fun o after ho ↦ ?_
  obtain ⟨happend, hlt⟩ := Grammar.append_of_opening ho
  have hafter : after <:+ rest := ⟨_, happend⟩
  cases o with
  | leaf d => exact closed_index hs (hafter.trans h) d
  | group head =>
    dsimp only
    rw [expect_index hs (hafter.trans h) (by decide)]
    refine atIndex_bind fun left inner hleft ↦ ?_
    have hinner := suffix_of_reads (Grammar.reads_expect _ _ after) hleft hafter
    have hlt' := Grammar.length_lt_of_expect hleft
    dsimp only
    rw [hmembers inner hinner (by omega)]
    refine atIndex_bind fun members last hlast ↦ ?_
    have hlast := suffix_of_reads (reads_readMembers inner) hlast hinner
    dsimp only
    rw [expect_index hs (hlast.trans h) (by decide)]
    refine atIndex_bind fun right outer hright ↦ ?_
    have houter := suffix_of_reads (Grammar.reads_expect _ _ last) hright hlast
    exact closed_index hs (houter.trans h) _

/-- Members are done in two steps for each token, one for the list and one for the item. -/
theorem itemFrom_index_and_membersFrom_index (fuel : Nat) :
    (∀ rest : List Token, rest <:+ s.tokens → 2 * rest.length < fuel →
      itemFrom s.toList fuel (index s rest) = atIndex s (readItem rest)) ∧
    ∀ rest : List Token, rest <:+ s.tokens → 2 * rest.length + 1 < fuel →
      membersFrom s.toList fuel (index s rest) = atIndex s (readMembers rest) := by
  induction fuel with
  | zero => exact ⟨fun _ _ hlt ↦ absurd hlt (Nat.not_lt_zero _),
      fun _ _ hlt ↦ absurd hlt (Nat.not_lt_zero _)⟩
  | succ fuel ih =>
    obtain ⟨ihItem, ihMembers⟩ := ih
    constructor
    · intro rest h hfuel
      exact itemFrom_index_of_members hs h fun inner hinner hlt ↦
        ihMembers inner (hinner.trans h) (by omega)
    · intro rest h hfuel
      rw [membersFrom, current_index h, ok_bind, readMembers_eq]
      simp only [← atBlockEnd_iff hs h]
      split
      · rfl
      · rw [ihItem rest h (by omega)]
        refine atIndex_bind fun m after hm ↦ ?_
        obtain ⟨happend, hlt⟩ := append_of_readItem hm
        dsimp only
        rw [ihMembers after (.trans ⟨_, happend⟩ h) (by omega)]
        exact atIndex_bind fun ms last _ ↦ rfl

theorem itemFrom_index {fuel : Nat} (h : rest <:+ s.tokens) (hfuel : 2 * rest.length < fuel) :
    itemFrom s.toList fuel (index s rest) = atIndex s (readItem rest) :=
  (itemFrom_index_and_membersFrom_index hs fuel).1 rest h hfuel

/-- What an item is does not depend on the bound of the loops. -/
theorem readItem_of_itemFrom {fuel pos : Nat} {m : Member} (h : rest <:+ s.tokens)
    (hitem : itemFrom s.toList fuel (index s rest) = .ok (m, pos)) :
    ∃ after, readItem rest = .ok (m, after) ∧ pos = index s after := by
  have hmore := itemFrom_mono (Nat.le_add_right fuel (2 * rest.length + 1)) hitem
  rw [itemFrom_index hs h (by omega)] at hmore
  cases hread : readItem rest with
  | error e => simp [hread, refuse] at hmore
  | ok r =>
    rw [hread] at hmore
    obtain ⟨rfl, rfl⟩ := Grammar.ok_pair_inj.1 hmore
    exact ⟨r.2, rfl, rfl⟩

/-! ### Files -/

/-- A closing brace starts no item. -/
theorem readItem_rightBrace (h : t :: ts <:+ s.tokens) (hkind : t.kind = .rightBrace) :
    readItem (t :: ts) = .error (Grammar.unexpected "a declaration" (t :: ts)) := by
  have htext := hs.text_rightBrace t (h.subset List.mem_cons_self) hkind
  have hpreamble : Grammar.preamble (t :: ts) = .ok (⟨[], []⟩, t :: ts) := by
    rw [Grammar.preamble, attributes_cons, if_neg (by simp [hkind]), ok_bind]
    dsimp only
    rw [modifiers_cons, if_neg (by simp [Grammar.isModifier, hkind])]
    rfl
  have hstart : Grammar.startOf t ts.head? = .other := by simp [Grammar.startOf, htext, hkind]
  rw [readItem, Grammar.opening, hpreamble, ok_bind]
  dsimp only
  rw [Grammar.openingAfter, hstart]
  dsimp only
  rw [Grammar.rawOpening, Grammar.rawDecl, if_pos hkind]
  rfl

theorem itemsFrom_index {fuel : Nat} (h : rest <:+ s.tokens) (hfuel : rest.length < fuel) :
    itemsFrom s.toList fuel (index s rest) =
      ofReading ((Grammar.fileItems rest).map fun ms ↦ (ms, index s [])) := by
  induction fuel generalizing rest with
  | zero => omega
  | succ fuel ih =>
    cases rest with
    | nil =>
      have hnil : Grammar.fileItems [] = .ok [] := by
        rw [fileItems_eq, readMembers_eq]
        rfl
      rw [itemsFrom, current_nil, ok_bind, if_pos hs.kind_endOfFile, hnil]
      rfl
    | cons t ts =>
      have hlt := length_lt_toList h
      rw [itemsFrom, current_cons h, ok_bind,
        if_neg (hs.kind_head h), itemFrom_index hs h (by omega)]
      by_cases hkind : t.kind = .rightBrace
      · rw [readItem_rightBrace hs h hkind, fileItems_eq, readMembers_eq,
          if_pos (by simp [atBlockEnd, hkind])]
        rfl
      · rw [fileItems_cons hkind]
        cases hitem : readItem (t :: ts) with
        | error e => rfl
        | ok r =>
          obtain ⟨m, rest⟩ := r
          obtain ⟨happend, hlt⟩ := append_of_readItem hitem
          rw [atIndex_ok, ok_bind, ok_bind]
          dsimp only
          rw [ih (.trans ⟨_, happend⟩ h) (by omega)]
          cases Grammar.fileItems rest <;> rfl

theorem file_eq :
    file s.toList = ofReading ((Grammar.fileItems s.tokens).map fun ms ↦ ⟨ms, s.endOfFile⟩) := by
  have hzero : index s s.tokens = 0 := Nat.sub_self _
  rw [file, ← hzero, itemsFrom_index hs List.suffix_rfl (length_lt_toList List.suffix_rfl)]
  cases Grammar.fileItems s.tokens with
  | error e => rfl
  | ok ms =>
    change (advance s.toList (index s []) >>= _) = _
    rw [advance_nil]
    rfl

end EnumForge.Checked
