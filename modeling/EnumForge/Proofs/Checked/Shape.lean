import EnumForge.Grammar.Shape
import EnumForge.Proofs.Checked.Guarded

/-!
# Shapes by indices

Types and expressions told apart by the indices of their tokens: a dictionary is cut at the places
of its brackets, colons and commas, and its pieces are told apart in turn.
-/

namespace EnumForge.Checked

open Grammar (splitAtKind? brackets? keyValue? splitAtComma only? implicitMember? typeOfTokens
  exprOfTokens elementsOfTokens append_of_splitAtKind? append_of_brackets? append_of_keyValue?
  splitAtComma_append only?_eq_some implicitMember?_eq_some)

def tokenAt (i : Nat) (ts : List Token) : Guarded Token :=
  match ts[i]? with
  | some t => .ok t
  | none => fault .index

def sliceTokens (start stop : Nat) (ts : List Token) : Guarded (List Token) :=
  if start ≤ stop ∧ stop ≤ ts.length then .ok ((ts.take stop).drop start) else fault .slice

/-- The second condition is looked at only if the first one holds. -/
def both (b : Bool) (c : Guarded Bool) : Guarded Bool := if b then c else .ok false

def tokenIs (kind : TokenKind) (i : Nat) (ts : List Token) : Guarded Bool := do
  let t ← tokenAt i ts
  return t.kind == kind

/-- The index of the first token of a kind outside all groups. -/
def findKind (kind : TokenKind) (depth : Int) : List Token → Option Nat
  | [] => none
  | t :: ts =>
    if t.kind = kind ∧ depth = 0 then some 0
    else
      let depth := if t.kind.opens then depth + 1 else if t.kind.closes then depth - 1 else depth
      (findKind kind depth ts).map (· + 1)

def isBracketed (ts : List Token) : Guarded Bool :=
  both (2 ≤ ts.length) (do
    both (← tokenIs .leftSquare 0 ts) (do
      both (← tokenIs .rightSquare (← sub ts.length 1) ts) (do
        let tail ← sliceTokens 1 ts.length ts
        return findKind .rightSquare 0 tail == some (← sub ts.length 2))))

/-- The index of the colon of an entry, with tokens on both sides. -/
def colonOf? (ts : List Token) : Option Nat :=
  (findKind .colon 0 ts).filter fun i ↦ 0 < i ∧ i + 1 < ts.length

def classifyType : Nat → List Token → Guarded TypeRef
  | 0, _ => fault .endless
  | fuel + 1, ts => do
    if ← both (ts.length = 1) (tokenIs .identifier 0 ts) then
      return .identifier (← tokenAt 0 ts)
    else if ← isBracketed ts then
      let last ← sub ts.length 1
      let inner ← sliceTokens 1 last ts
      match colonOf? inner with
      | none => return .raw ts
      | some i =>
        let key ← classifyType fuel (← sliceTokens 0 i inner)
        let value ← classifyType fuel (← sliceTokens (i + 1) inner.length inner)
        return .dictionary (← tokenAt 0 ts) key (← tokenAt i inner) value (← tokenAt last ts)
    else return .raw ts

mutual

def classifyExpr : Nat → List Token → Guarded Expr
  | 0, _ => fault .endless
  | fuel + 1, ts => do
    if ← both (ts.length = 1) (tokenIs .stringLiteral 0 ts) then
      return .string (← tokenAt 0 ts)
    else if ← both (ts.length = 2) (do
        both (← tokenIs .period 0 ts) (tokenIs .identifier 1 ts)) then
      return .implicitMember (← tokenAt 0 ts) (← tokenAt 1 ts)
    else if ← isBracketed ts then
      let left ← tokenAt 0 ts
      let last ← sub ts.length 1
      let right ← tokenAt last ts
      let inner ← sliceTokens 1 last ts
      if ← both (inner.length = 1) (tokenIs .colon 0 inner) then
        return .emptyDictionary left (← tokenAt 0 inner) right
      else
        match ← classifyEntries fuel inner with
        | none | some [] => return .raw ts
        | some (e :: es) => return .dictionary left (e :: es) right
    else return .raw ts

def classifyEntries : Nat → List Token → Guarded (Option (List DictionaryElement))
  | 0, _ => fault .endless
  | _ + 1, [] => return some []
  | fuel + 1, t :: rest => do
    let ts := t :: rest
    let stop := (findKind .comma 0 ts).getD ts.length
    let element ← sliceTokens 0 stop ts
    match colonOf? element with
    | none => return none
    | some i =>
      let key ← classifyExpr fuel (← sliceTokens 0 i element)
      let colon ← tokenAt i element
      let value ← classifyExpr fuel (← sliceTokens (i + 1) element.length element)
      -- The comma and what follows it are looked up without a fault where there are none.
      match ← classifyEntries fuel (ts.drop (stop + 1)) with
      | none => return none
      | some es => return some (⟨key, colon, value, ts[stop]?⟩ :: es)

end

/-! ### Pieces of a list -/

@[simp] theorem tokenAt_append (before : List Token) (t : Token) (after : List Token) :
    tokenAt before.length (before ++ t :: after) = .ok t := by
  simp [tokenAt]

@[simp] theorem tokenAt_zero (t : Token) (ts : List Token) : tokenAt 0 (t :: ts) = .ok t := rfl

theorem tokenAt_of_head? {ts : List Token} {t : Token} (h : ts.head? = some t) :
    tokenAt 0 ts = .ok t := by
  obtain ⟨us, rfl⟩ := List.head?_eq_some_iff.1 h
  rfl

theorem sliceTokens_append (before run after : List Token) :
    sliceTokens before.length (before.length + run.length) (before ++ (run ++ after)) =
      .ok run := by
  have htake : (before ++ (run ++ after)).take (before.length + run.length) = before ++ run := by
    rw [← List.append_assoc, ← List.length_append, List.take_left]
  rw [sliceTokens, if_pos ⟨Nat.le_add_right _ _, by simp⟩, htake, List.drop_left]

/-- The tokens before the one at an index, and those after it. -/
theorem sliceTokens_around (before : List Token) (t : Token) (after : List Token) :
    sliceTokens 0 before.length (before ++ t :: after) = .ok before ∧
      sliceTokens (before.length + 1) (before ++ t :: after).length (before ++ t :: after) =
        .ok after := by
  have hbefore := sliceTokens_append [] before (t :: after)
  have hafter := sliceTokens_append (before ++ [t]) after []
  simp only [List.length_append, List.length_cons, List.length_nil, List.append_nil,
    List.append_assoc, List.singleton_append, List.nil_append, Nat.zero_add] at hbefore hafter
  refine ⟨hbefore, ?_⟩
  rw [← hafter]
  simp only [List.length_append, List.length_cons]
  congr 1
  omega

/-! ### Searching outside groups -/

theorem kind_of_splitAtKind? {kind : TokenKind} {depth : Int} {ts before after : List Token}
    {t : Token} (h : splitAtKind? kind depth ts = some (before, t, after)) : t.kind = kind := by
  induction ts generalizing depth before with
  | nil => simp [splitAtKind?] at h
  | cons u ts ih =>
    unfold splitAtKind? at h
    split at h
    next hu =>
      simp only [Option.some.injEq, Prod.mk.injEq] at h
      obtain ⟨-, rfl, -⟩ := h
      exact hu.1
    next =>
      obtain ⟨⟨b, v, a⟩, hs, he⟩ := Option.map_eq_some_iff.1 h
      simp only [Prod.mk.injEq] at he
      obtain ⟨-, rfl, rfl⟩ := he
      exact ih hs

theorem findKind_eq (kind : TokenKind) (depth : Int) (ts : List Token) :
    findKind kind depth ts = (splitAtKind? kind depth ts).map (·.1.length) := by
  induction ts generalizing depth with
  | nil => rfl
  | cons t ts ih =>
    rw [findKind, splitAtKind?]
    split
    · rfl
    · simp [ih, Function.comp_def]

@[simp] theorem both_ok (b c : Bool) : both b (.ok c) = .ok (b && c) := by
  cases b <;> rfl

theorem isBracketed_around (left : Token) (inner : List Token) (right : Token) :
    isBracketed (left :: (inner ++ [right])) =
      .ok (left.kind == .leftSquare && (right.kind == .rightSquare &&
        findKind .rightSquare 0 (inner ++ [right]) == some inner.length)) := by
  have hlen : (left :: (inner ++ [right])).length = inner.length + 2 := by simp
  have hright : tokenAt (inner.length + 1) (left :: (inner ++ [right])) = .ok right :=
    tokenAt_append (left :: inner) right []
  have htail : sliceTokens 1 (inner.length + 2) (left :: (inner ++ [right])) =
      .ok (inner ++ [right]) := by
    have := (sliceTokens_around [] left (inner ++ [right])).2
    rwa [List.nil_append, hlen] at this
  simp only [isBracketed, hlen, sub_of_le, tokenIs, Nat.le_add_left, Nat.add_sub_cancel, ok_bind,
    htail, tokenAt_zero, pure_eq_ok, both_ok,
    show inner.length + 2 - 1 = inner.length + 1 from rfl, hright,
    decide_true, Bool.true_and]

theorem isBracketed_eq (ts : List Token) : isBracketed ts = .ok (brackets? ts).isSome := by
  obtain _ | ⟨left, ts⟩ := ts
  · rfl
  obtain rfl | ⟨inner, last, rfl⟩ := ts.eq_nil_or_concat
  · simp [isBracketed, both, brackets?, splitAtKind?]
  rw [List.concat_eq_append, isBracketed_around, findKind_eq, brackets?]
  by_cases hleft : left.kind = .leftSquare
  · rw [if_pos hleft, hleft]
    rcases hs : splitAtKind? .rightSquare 0 (inner ++ [last]) with _ | ⟨before, right, after⟩
    · simp
    · have happ := append_of_splitAtKind? hs
      obtain _ | ⟨u, after⟩ := after
      · obtain ⟨rfl, hlast⟩ := List.append_inj' happ rfl
        obtain rfl : right = last := by simpa using hlast
        simp [kind_of_splitAtKind? hs]
      · have hlen := congrArg List.length happ
        have hne : before.length ≠ inner.length := by
          simp at hlen
          omega
        simp [hne]
  · simp [hleft]

/-- The places of brackets and of what they enclose. -/
theorem places_of_brackets? {ts inner : List Token} {left right : Token}
    (h : brackets? ts = some (left, inner, right)) :
    tokenAt 0 ts = .ok left ∧ sub ts.length 1 = .ok (inner.length + 1) ∧
      sliceTokens 1 (inner.length + 1) ts = .ok inner ∧
        tokenAt (inner.length + 1) ts = .ok right := by
  rw [← append_of_brackets? h]
  refine ⟨rfl, by simp [sub_of_le], ?_, tokenAt_append (left :: inner) right []⟩
  rw [Nat.add_comm]
  exact sliceTokens_append [left] inner [right]

theorem colonOf?_eq_none {ts : List Token} (h : keyValue? ts = none) : colonOf? ts = none := by
  rw [colonOf?, findKind_eq]
  rcases hs : splitAtKind? .colon 0 ts with _ | ⟨key, colon, value⟩
  · rfl
  · rw [keyValue?, hs] at h
    have hlen := congrArg List.length (append_of_splitAtKind? hs)
    cases key with
    | nil => simp
    | cons k key =>
      cases value with
      | nil =>
        simp at hlen ⊢
        omega
      | cons v value => simp at h

theorem colonOf?_eq_some {ts key value : List Token} {colon : Token}
    (h : keyValue? ts = some (key, colon, value)) : colonOf? ts = some key.length := by
  rw [colonOf?, findKind_eq]
  unfold keyValue? at h
  split at h
  next hs =>
    simp only [Option.some.injEq, Prod.mk.injEq] at h
    obtain ⟨rfl, rfl, rfl⟩ := h
    have hlen := congrArg List.length (append_of_splitAtKind? hs)
    simp [hs] at hlen ⊢
    omega
  next => simp at h

/-- The places of a colon and of what stands on its sides. -/
theorem places_of_keyValue? {ts key value : List Token} {colon : Token}
    (h : keyValue? ts = some (key, colon, value)) :
    sliceTokens 0 key.length ts = .ok key ∧ tokenAt key.length ts = .ok colon ∧
      sliceTokens (key.length + 1) ts.length ts = .ok value := by
  rw [← append_of_keyValue? h]
  have ⟨hkey, hvalue⟩ := sliceTokens_around key colon value
  exact ⟨hkey, tokenAt_append key colon value, hvalue⟩

/-! ### Types -/

theorem both_only? (kind : TokenKind) (ts : List Token) :
    both (ts.length = 1) (tokenIs kind 0 ts) = .ok (only? kind ts).isSome := by
  rcases ts with _ | ⟨t, _ | ⟨u, ts⟩⟩
  · rfl
  · by_cases ht : t.kind = kind <;> simp [both, tokenIs, only?, ht]
  · simp [both, only?]

theorem classifyType_eq {fuel : Nat} {ts : List Token} (h : ts.length < fuel) :
    classifyType fuel ts = .ok (typeOfTokens ts) := by
  fun_induction typeOfTokens ts generalizing fuel with
  | case1 ts name ho =>
    obtain ⟨fuel, rfl⟩ := exists_fuel h
    rw [classifyType, both_only?, ok_bind, ho, only?_eq_some ho]
    rfl
  | case2 ts ho hb =>
    obtain ⟨fuel, rfl⟩ := exists_fuel h
    simp [classifyType, both_only?, ho, isBracketed_eq, hb]
  | case3 ts ho left inner right hb hp =>
    obtain ⟨fuel, rfl⟩ := exists_fuel h
    obtain ⟨-, hlast, hinner, -⟩ := places_of_brackets? hb
    simp [classifyType, both_only?, ho, isBracketed_eq, hb, hlast, hinner, colonOf?_eq_none hp]
  | case4 ts ho left inner right hb key colon value hp ihk ihv =>
    obtain ⟨fuel, rfl⟩ := exists_fuel h
    obtain ⟨hleft, hlast, hinner, hright⟩ := places_of_brackets? hb
    obtain ⟨hkey, hcolon, hvalue⟩ := places_of_keyValue? hp
    have hlen := congrArg List.length (append_of_brackets? hb)
    have hlen' := congrArg List.length (append_of_keyValue? hp)
    simp only [List.length_cons, List.length_append] at hlen hlen'
    rw [classifyType]
    simp [both_only?, ho, isBracketed_eq, hb, hlast, hinner, colonOf?_eq_some hp, hkey, hcolon,
      hvalue, hleft, hright, @ihk fuel (by omega), @ihv fuel (by omega)]

/-! ### Expressions -/

theorem both_implicitMember? (ts : List Token) :
    both (ts.length = 2) (do both (← tokenIs .period 0 ts) (tokenIs .identifier 1 ts)) =
      .ok (implicitMember? ts).isSome := by
  rcases ts with _ | ⟨t, _ | ⟨u, _ | ⟨v, ts⟩⟩⟩
  · rfl
  · rfl
  · have hsecond : tokenAt 1 [t, u] = .ok u := rfl
    by_cases ht : t.kind = .period <;> by_cases hu : u.kind = .identifier <;>
      simp [both, tokenIs, implicitMember?, hsecond, ht, hu]
  · simp [both, implicitMember?]

/-- The places of the comma and of what stands on its sides. -/
theorem places_of_splitAtComma (ts : List Token) :
    let stop := (findKind .comma 0 ts).getD ts.length
    sliceTokens 0 stop ts = .ok (splitAtComma ts).1 ∧ ts[stop]? = (splitAtComma ts).2.1 ∧
      ts.drop (stop + 1) = (splitAtComma ts).2.2 := by
  rw [findKind_eq, splitAtComma]
  rcases hs : splitAtKind? .comma 0 ts with _ | ⟨before, comma, after⟩
  · simp [sliceTokens]
  · rw [← append_of_splitAtKind? hs]
    exact ⟨(sliceTokens_around before comma after).1, by simp, by simp [List.drop_append]⟩

theorem classifyExpr_of_entries {fuel : Nat} {ts : List Token}
    (ih : ∀ inner : List Token, inner.length < ts.length →
      classifyEntries fuel inner = .ok (elementsOfTokens inner)) :
    classifyExpr (fuel + 1) ts = .ok (exprOfTokens ts) := by
  rw [classifyExpr, both_only?, ok_bind, both_implicitMember?, ok_bind, isBracketed_eq, ok_bind]
  fun_cases exprOfTokens ts with
  | case1 literal ho =>
    rw [ho, only?_eq_some ho]
    rfl
  | case2 ho period name hm =>
    rw [ho, hm, implicitMember?_eq_some hm]
    rfl
  | case3 ho hm hb => simp [ho, hm, hb]
  | case4 ho hm left inner right hb colon hc =>
    obtain ⟨hleft, hlast, hinner, hright⟩ := places_of_brackets? hb
    simp [ho, hm, hb, hleft, hlast, hinner, hright, both_only?, hc]
    rw [only?_eq_some hc]
    rfl
  | case5 ho hm left inner right hb hc e es he =>
    obtain ⟨hleft, hlast, hinner, hright⟩ := places_of_brackets? hb
    have hlen := congrArg List.length (append_of_brackets? hb)
    simp only [List.length_cons, List.length_append] at hlen
    simp [ho, hm, hb, hleft, hlast, hinner, hright, both_only?, hc, ih inner (by omega), he]
  | case6 ho hm left inner right hb hc hne =>
    obtain ⟨hleft, hlast, hinner, hright⟩ := places_of_brackets? hb
    have hlen := congrArg List.length (append_of_brackets? hb)
    simp only [List.length_cons, List.length_append] at hlen
    simp [ho, hm, hb, hleft, hlast, hinner, hright, both_only?, hc, ih inner (by omega)]
    rcases he : elementsOfTokens inner with _ | _ | ⟨e, es⟩
    · rfl
    · rfl
    · exact (hne e es he).elim

theorem lengths_of_entry {ts key value : List Token} {colon : Token}
    (h : keyValue? (splitAtComma ts).1 = some (key, colon, value)) :
    key.length < ts.length ∧ value.length < ts.length ∧
      (splitAtComma ts).2.2.length < ts.length := by
  have hts := congrArg List.length (splitAtComma_append ts)
  have hentry := congrArg List.length (append_of_keyValue? h)
  simp only [List.length_append, List.length_cons] at hts hentry
  omega

theorem classifyEntries_of_expr {fuel : Nat} {ts : List Token}
    (ihe : ∀ run : List Token, run.length < ts.length →
      classifyExpr fuel run = .ok (exprOfTokens run))
    (ih : ∀ rest : List Token, rest.length < ts.length →
      classifyEntries fuel rest = .ok (elementsOfTokens rest)) :
    classifyEntries (fuel + 1) ts = .ok (elementsOfTokens ts) := by
  fun_cases elementsOfTokens ts with
  | case1 => rfl
  | case2 t rest hp =>
    obtain ⟨hentry, -, -⟩ := places_of_splitAtComma (t :: rest)
    rw [classifyEntries]
    simp only [hentry, ok_bind, colonOf?_eq_none hp, pure_eq_ok]
  | case3 t rest key colon value hp he =>
    obtain ⟨hentry, hcomma, hafter⟩ := places_of_splitAtComma (t :: rest)
    obtain ⟨hkey, hcolon, hvalue⟩ := places_of_keyValue? hp
    obtain ⟨hk, hv, hr⟩ := lengths_of_entry hp
    rw [classifyEntries]
    simp only [hentry, hafter, ok_bind, colonOf?_eq_some hp, hkey, hcolon, hvalue, ihe key hk,
      ihe value hv, ih _ hr, he, pure_eq_ok]
  | case4 t rest key colon value hp es he =>
    obtain ⟨hentry, hcomma, hafter⟩ := places_of_splitAtComma (t :: rest)
    obtain ⟨hkey, hcolon, hvalue⟩ := places_of_keyValue? hp
    obtain ⟨hk, hv, hr⟩ := lengths_of_entry hp
    rw [classifyEntries]
    simp only [hentry, hcomma, hafter, ok_bind, colonOf?_eq_some hp, hkey, hcolon, hvalue,
      ihe key hk, ihe value hv, ih _ hr, he, pure_eq_ok]

theorem classify_eq {fuel : Nat} {ts : List Token} (h : ts.length < fuel) :
    classifyExpr fuel ts = .ok (exprOfTokens ts) ∧
      classifyEntries fuel ts = .ok (elementsOfTokens ts) := by
  induction fuel generalizing ts with
  | zero => omega
  | succ fuel ih =>
    exact ⟨classifyExpr_of_entries fun inner hlt ↦ (ih (by omega)).2,
      classifyEntries_of_expr (fun run hlt ↦ (ih (by omega)).1) fun rest hlt ↦ (ih (by omega)).2⟩

end EnumForge.Checked
