import EnumForge.Proofs.Checked.Cursor

/-!
# Clauses read with the cursor

The readers of attributes, modifiers, types, expressions and the clauses of a group as loops over
the cursor, each with as many steps as there are tokens.  Each reads what the reader over lists
reads, and is refused where that one is.
-/

namespace EnumForge.Checked

open Grammar (Reading Reads isModifier)

section Readers

variable (tokens : List Token)

def groupAt (left : TokenKind) (pos : Nat) : Guarded (Option (List Token) × Nat) := do
  if (← current tokens pos).kind = left then
    let (run, pos) ← balanced tokens pos
    return (some run, pos)
  else return (none, pos)

def argumentsOf (name : Token) (pos : Nat) : Guarded (Option (List Token) × Nat) :=
  if name.trailing.isEmpty then groupAt tokens .leftParen pos else .ok (none, pos)

def attributesFrom : Nat → Nat → Guarded (List Attribute × Nat)
  | 0, _ => fault .endless
  | fuel + 1, pos => do
    if (← current tokens pos).kind = .atSign then
      let (atSign, pos) ← take tokens pos
      let name ← current tokens pos
      if name.kind = .identifier ∨ name.kind = .keyword then
        let (name, pos) ← take tokens pos
        let (arguments, pos) ← argumentsOf tokens name pos
        let (rest, pos) ← attributesFrom fuel pos
        return (⟨atSign, name, arguments⟩ :: rest, pos)
      else refuse (unexpected "an attribute name" name)
    else return ([], pos)

def modifiersFrom : Nat → Nat → Guarded (List Modifier × Nat)
  | 0, _ => fault .endless
  | fuel + 1, pos => do
    if isModifier (← current tokens pos) (some (← peekNth tokens 1 pos)) then
      let (name, pos) ← take tokens pos
      let (detail, pos) ← argumentsOf tokens name pos
      let (rest, pos) ← modifiersFrom fuel pos
      return (⟨name, detail⟩ :: rest, pos)
    else return ([], pos)

def preamble (pos : Nat) : Guarded (Preamble × Nat) := do
  let (attributes, pos) ← attributesFrom tokens tokens.length pos
  let (modifiers, pos) ← modifiersFrom tokens tokens.length pos
  return (⟨attributes, modifiers⟩, pos)

/-- A run told apart by its shape; it has to have a token. -/
def shaped {α : Type} (expected : String) (classify : Nat → List Token → Guarded α)
    (read : Nat → Guarded (List Token × Nat)) (pos : Nat) : Guarded (α × Nat) := do
  let (run, pos) ← read pos
  if run = [] then refuse (unexpected expected (← current tokens pos))
  else return (← classify (run.length + 1) run, pos)

def type (pos : Nat) : Guarded (TypeRef × Nat) :=
  shaped tokens "a type" classifyType (typeRun tokens) pos

def expr (pos : Nat) : Guarded (Expr × Nat) :=
  shaped tokens "an expression" classifyExpr (exprRun tokens) pos

def generics (pos : Nat) : Guarded (Option (List Token) × Nat) := do
  let t ← current tokens pos
  if t.kind = .operator ∧ t.text.toList.head? = some '<' then
    let (run, pos) ← angleFrom tokens tokens.length 0 [] pos
    return (some run, pos)
  else return (none, pos)

def whereClause (pos : Nat) : Guarded (Option (List Token) × Nat) := do
  if (← current tokens pos).isKeyword "where" then
    let (t, pos) ← take tokens pos
    let (run, pos) ← whereFrom tokens tokens.length [t] pos
    return (some run, pos)
  else return (none, pos)

def inheritedTypesFrom : Nat → Nat → Guarded (List InheritedType × Nat)
  | 0, _ => fault .endless
  | fuel + 1, pos => do
    let (t, pos) ← type tokens pos
    let (comma, pos) ← takeIf tokens .comma pos
    if comma.isSome ∧ (← current tokens pos).kind ≠ .leftBrace then
      let (rest, pos) ← inheritedTypesFrom fuel pos
      return (⟨t, comma⟩ :: rest, pos)
    else return ([⟨t, comma⟩], pos)

def inheritance (pos : Nat) : Guarded (Option InheritanceClause × Nat) := do
  if (← current tokens pos).kind = .colon then
    let (colon, pos) ← take tokens pos
    let (types, pos) ← inheritedTypesFrom tokens tokens.length pos
    return (some ⟨colon, types⟩, pos)
  else return (none, pos)

end Readers

variable {s : TokenStream} {t : Token} {ts rest : List Token}

/-! ### Readers as binds -/

theorem attributes_cons (t : Token) (ts : List Token) :
    Grammar.attributes (t :: ts) =
      if t.kind = .atSign then do
        let (a, rest) ← Grammar.attributeAfter t ts
        let (as, rest) ← Grammar.attributes rest
        return (a :: as, rest)
      else .ok ([], t :: ts) := by
  rw [Grammar.attributes]
  split
  · split
    next e he => rw [he, error_bind]
    next a rest ha =>
      rw [ha, ok_bind]
      dsimp only
      rcases Grammar.attributes rest with _ | _ <;> rfl
  · rfl

theorem modifiers_cons (t : Token) (ts : List Token) :
    Grammar.modifiers (t :: ts) =
      if isModifier t ts.head? then do
        let (detail, rest) ← Grammar.argumentsOf t ts
        let (ms, rest) ← Grammar.modifiers rest
        return (⟨t, detail⟩ :: ms, rest)
      else .ok ([], t :: ts) := by
  rw [Grammar.modifiers]
  split
  · split
    next e he => rw [he, error_bind]
    next detail rest hd =>
      rw [hd, ok_bind]
      dsimp only
      rcases Grammar.modifiers rest with _ | _ <;> rfl
  · rfl

theorem inheritedTypes_eq (ts : List Token) :
    Grammar.inheritedTypes ts = do
      let (t, rest) ← Grammar.type ts
      let (comma, rest) ← (.ok (Grammar.takeKind .comma rest) : Reading (Option Token × List Token))
      if Grammar.continuesList comma rest then
        let (is, rest) ← Grammar.inheritedTypes rest
        return (⟨t, comma⟩ :: is, rest)
      else return ([⟨t, comma⟩], rest) := by
  rw [Grammar.inheritedTypes]
  split
  next e he => rw [he, error_bind]
  next t rest ht =>
    rw [ht, ok_bind]
    dsimp only
    rw [ok_bind]
    split
    · rcases Grammar.inheritedTypes (Grammar.takeKind .comma rest).2 with _ | _ <;> rfl
    · rfl

variable (hs : Ended s)

include hs

theorem groupAt_index (h : rest <:+ s.tokens) {left : TokenKind} (hleft : left ≠ .endOfFile) :
    groupAt s.toList left (index s rest) = atIndex s (Grammar.groupAt left rest) := by
  cases rest with
  | nil =>
    rw [groupAt, current_nil, ok_bind, hs.kind_endOfFile, if_neg hleft.symm]
    rfl
  | cons t ts =>
    rw [groupAt, current_cons h, ok_bind, balanced_index hs h, Grammar.groupAt]
    split
    · cases Grammar.balancedRun 1 ts <;> rfl
    · rfl

theorem argumentsOf_index (h : rest <:+ s.tokens) (name : Token) :
    argumentsOf s.toList name (index s rest) = atIndex s (Grammar.argumentsOf name rest) := by
  rw [argumentsOf, Grammar.argumentsOf, groupAt_index hs h (by decide)]
  split <;> rfl

theorem attributesFrom_index {fuel : Nat} (h : rest <:+ s.tokens) (hfuel : rest.length < fuel) :
    attributesFrom s.toList fuel (index s rest) = atIndex s (Grammar.attributes rest) := by
  induction fuel generalizing rest with
  | zero => omega
  | succ fuel ih =>
    cases rest with
    | nil => simp [attributesFrom, current_nil, hs.kind_endOfFile, Grammar.attributes]
    | cons t ts =>
      have htail := suffix_of_cons h
      rw [attributesFrom, current_cons h, ok_bind, attributes_cons]
      split
      · rw [take_cons hs h, ok_bind]
        dsimp only
        cases ts with
        | nil =>
          simp [current_nil, hs.kind_endOfFile, Grammar.attributeAfter, unexpected_endOfFile hs]
        | cons name ts =>
          rw [current_cons htail, ok_bind, Grammar.attributeAfter]
          split
          · have hname := suffix_of_cons htail
            rw [take_cons hs htail, ok_bind, bind_assoc]
            dsimp only
            rw [argumentsOf_index hs hname]
            refine atIndex_bind fun arguments rest harg ↦ ?_
            have hreads := Grammar.reads_argumentsOf name ts
            have hle := (suffix_of_reads hreads harg List.suffix_rfl).length_le
            dsimp only
            rw [ih (suffix_of_reads hreads harg hname) (by simp at hfuel; omega)]
            exact atIndex_bind fun as rest _ ↦ rfl
          · rw [unexpected_cons hs htail]
            rfl
      · rfl

/-- The token behind the last one is the last one, which is no reason to take a modifier. -/
theorem isModifier_next (t : Token) (next : Option Token) :
    isModifier t (some (next.getD s.endOfFile)) = isModifier t next := by
  cases next with
  | none =>
    have hword : "" ∉ Grammar.modifierWords := by decide
    simp [isModifier, hs.kind_endOfFile, hs.text_endOfFile, hword]
  | some t => rfl

theorem modifiersFrom_index {fuel : Nat} (h : rest <:+ s.tokens) (hfuel : rest.length < fuel) :
    modifiersFrom s.toList fuel (index s rest) = atIndex s (Grammar.modifiers rest) := by
  induction fuel generalizing rest with
  | zero => omega
  | succ fuel ih =>
    cases rest with
    | nil =>
      simp [modifiersFrom, current_nil, peekNth_index h, isModifier, hs.kind_endOfFile,
        Grammar.modifiers]
    | cons t ts =>
      have htail := suffix_of_cons h
      rw [modifiersFrom, current_cons h, ok_bind, peekNth_index h, ok_bind, modifiers_cons,
        List.getElem?_cons_succ, ← List.head?_eq_getElem?, isModifier_next hs]
      split
      · rw [take_cons hs h, ok_bind]
        dsimp only
        rw [argumentsOf_index hs htail]
        refine atIndex_bind fun detail rest hdetail ↦ ?_
        have hreads := Grammar.reads_argumentsOf t ts
        have hle := (suffix_of_reads hreads hdetail List.suffix_rfl).length_le
        dsimp only
        rw [ih (suffix_of_reads hreads hdetail htail) (by simp at hfuel; omega)]
        exact atIndex_bind fun ms rest _ ↦ rfl
      · rfl

theorem preamble_index (h : rest <:+ s.tokens) :
    preamble s.toList (index s rest) = atIndex s (Grammar.preamble rest) := by
  rw [preamble, attributesFrom_index hs h (length_lt_toList h)]
  refine atIndex_bind_of_reads (Grammar.reads_attributes rest) h fun as ts htail ↦ ?_
  dsimp only
  rw [modifiersFrom_index hs htail (length_lt_toList htail)]
  exact atIndex_bind fun ms rest _ ↦ rfl

/-! ### Types and expressions -/

theorem refuse_unexpected (h : rest <:+ s.tokens) {α : Type} (expected : String) :
    (do refuse (unexpected expected (← current s.toList (index s rest))) : Guarded α) =
      refuse (Grammar.unexpected expected rest) := by
  cases rest with
  | nil => rw [current_nil, ok_bind, unexpected_endOfFile hs]
  | cons t ts => rw [current_cons h, ok_bind, unexpected_cons hs h]

theorem shaped_index {α : Type} {expected : String} {classify : Nat → List Token → Guarded α}
    {shape : List Token → α} (hshape : ∀ run, classify (run.length + 1) run = .ok (shape run))
    {read : Nat → Guarded (List Token × Nat)} {e : ParseError Nat}
    {o : Option (List Token × List Token)} (hread : read (index s rest) = afterRun s [] e o)
    (happend : ∀ run after, o = some (run, after) → run ++ after = rest) (h : rest <:+ s.tokens) :
    shaped s.toList expected classify read (index s rest) =
      atIndex s (match o with
        | none => .error e
        | some ([], after) => .error (Grammar.unexpected expected after)
        | some (run, after) => .ok (shape run, after)) := by
  rw [shaped, hread]
  rcases o with _ | ⟨_ | ⟨t, run⟩, after⟩
  · rfl
  · have hafter : after = rest := happend [] after rfl
    rw [afterRun, ok_bind, hafter]
    exact refuse_unexpected hs h expected
  · rw [afterRun, ok_bind]
    dsimp only
    rw [List.nil_append, if_neg (List.cons_ne_nil t run), hshape]
    rfl

theorem type_index (h : rest <:+ s.tokens) :
    type s.toList (index s rest) = atIndex s (Grammar.type rest) := by
  refine shaped_index hs (fun run ↦ classifyType_eq (Nat.lt_succ_self _)) ?_
    (fun _ _ ↦ Grammar.append_of_typeRun) h
  cases rest with
  | nil =>
    refine runFrom_nil (length_lt_toList h) ?_
    simp [typeEnds, hs.kind_endOfFile]
  | cons t ts => exact typeRun_index hs h

theorem expr_index (h : rest <:+ s.tokens) :
    expr s.toList (index s rest) = atIndex s (Grammar.expr rest) := by
  refine shaped_index hs (fun run ↦ (classify_eq (Nat.lt_succ_self _)).1) ?_
    (fun _ _ ↦ Grammar.append_of_exprRun) h
  cases rest with
  | nil =>
    refine runFrom_nil (length_lt_toList h) ?_
    simp [exprEnds, hs.kind_endOfFile]
  | cons t ts => exact exprRun_index hs h

/-! ### Clauses of a group -/

theorem generics_index (h : rest <:+ s.tokens) :
    generics s.toList (index s rest) = atIndex s (Grammar.generics rest) := by
  cases rest with
  | nil => simp [generics, current_nil, hs.kind_endOfFile, Grammar.generics]
  | cons t ts =>
    rw [generics, current_cons h, ok_bind, Grammar.generics]
    split
    · rw [angleFrom_index hs h (length_lt_toList h) rfl]
      cases Grammar.angleRun 0 (t :: ts) <;> rfl
    · rfl

theorem whereClause_index (h : rest <:+ s.tokens) :
    whereClause s.toList (index s rest) = atIndex s (.ok (Grammar.whereClause rest)) := by
  cases rest with
  | nil =>
    simp [whereClause, current_nil, Token.isKeyword, hs.kind_endOfFile, Grammar.whereClause]
  | cons t ts =>
    have htail := suffix_of_cons h
    rw [whereClause, current_cons h, ok_bind, Grammar.whereClause]
    split
    · rw [take_cons hs h, ok_bind]
      dsimp only
      rw [whereFrom_index hs htail (length_lt_toList htail)]
      rfl
    · rfl

omit hs in
theorem suffix_of_takeKind (kind : TokenKind) (ts : List Token) :
    (Grammar.takeKind kind ts).2 <:+ ts :=
  ⟨_, Grammar.takeKind_append kind ts⟩

theorem continuesList_iff (comma : Option Token) (rest : List Token) :
    Grammar.continuesList comma rest ↔
      comma.isSome ∧ (rest.head?.getD s.endOfFile).kind ≠ .leftBrace := by
  cases rest with
  | nil => simp [Grammar.continuesList, hs.kind_endOfFile]
  | cons t ts => simp [Grammar.continuesList]

theorem inheritedTypesFrom_index {fuel : Nat} (h : rest <:+ s.tokens) (hfuel : rest.length < fuel) :
    inheritedTypesFrom s.toList fuel (index s rest) =
      atIndex s (Grammar.inheritedTypes rest) := by
  induction fuel generalizing rest with
  | zero => omega
  | succ fuel ih =>
    rw [inheritedTypesFrom, type_index hs h, inheritedTypes_eq]
    refine atIndex_bind fun t after ht ↦ ?_
    have hafter := suffix_of_reads (Grammar.reads_type rest) ht h
    have hlt := Grammar.length_lt_of_type ht
    dsimp only
    rw [takeIf_index hs hafter (by decide)]
    refine atIndex_bind fun comma last hcomma ↦ ?_
    have hsuffix : last <:+ after := by
      have := suffix_of_takeKind .comma after
      rwa [Except.ok.inj hcomma] at this
    have hlast := hsuffix.trans hafter
    have hle := hsuffix.length_le
    dsimp only
    rw [current_index hlast, ok_bind]
    simp only [continuesList_iff hs]
    split
    · rw [ih hlast (by omega)]
      exact atIndex_bind fun is rest _ ↦ rfl
    · rfl

theorem inheritance_index (h : rest <:+ s.tokens) :
    inheritance s.toList (index s rest) = atIndex s (Grammar.inheritance rest) := by
  cases rest with
  | nil => simp [inheritance, current_nil, hs.kind_endOfFile, Grammar.inheritance]
  | cons t ts =>
    have htail := suffix_of_cons h
    rw [inheritance, current_cons h, ok_bind, Grammar.inheritance]
    split
    · rw [take_cons hs h, ok_bind]
      dsimp only
      rw [inheritedTypesFrom_index hs htail (length_lt_toList htail)]
      exact atIndex_bind fun types rest _ ↦ rfl
    · rfl

end EnumForge.Checked
