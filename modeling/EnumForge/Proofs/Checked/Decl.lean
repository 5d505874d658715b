import EnumForge.Grammar.Item
import EnumForge.Proofs.Checked.Clause

/-!
# Declarations read with the cursor

Cases, bindings, raw declarations and the heads of groups.  A case or a binding is tried; if it is
refused, the cursor goes back to its keyword.  A fault is not undone that way: it goes through.
-/

namespace EnumForge.Checked

open Grammar (Opening startOf)

/-- A result that was refused is no result; a fault stays a fault. -/
def attempt {α : Type} : Guarded α → Guarded (Option α)
  | .ok a => .ok (some a)
  | .error (.refused _) => .ok none
  | .error (.fault f) => fault f

section Readers

variable (tokens : List Token)

def initializer (pos : Nat) : Guarded (Option Initializer × Nat) := do
  if (← current tokens pos).kind = .equal then
    let (equal, pos) ← take tokens pos
    let (value, pos) ← expr tokens pos
    return (some ⟨equal, value⟩, pos)
  else return (none, pos)

def typeClause (pos : Nat) : Guarded (Option TypeClause × Nat) := do
  if (← current tokens pos).kind = .colon then
    let (colon, pos) ← take tokens pos
    let (type, pos) ← type tokens pos
    return (some ⟨colon, type⟩, pos)
  else return (none, pos)

def atDeclEnd (pos : Nat) : Guarded Bool := do
  let t ← current tokens pos
  return t.kind == .semicolon || t.kind == .rightBrace || t.kind == .endOfFile || t.startsLine

/-- `a` where a declaration ends; nothing else may follow it. -/
def ended {α : Type} (expected : String) (a : α) (pos : Nat) : Guarded (α × Nat) := do
  if ← atDeclEnd tokens pos then return (a, pos)
  else refuse (unexpected expected (← current tokens pos))

def caseElement (pos : Nat) : Guarded (CaseElement × Nat) := do
  let (name, pos) ← expect tokens .identifier "a case name" pos
  let (associatedValue, pos) ← groupAt tokens .leftParen pos
  let (rawValue, pos) ← initializer tokens pos
  let (comma, pos) ← takeIf tokens .comma pos
  return (⟨name, associatedValue, rawValue, comma⟩, pos)

def caseElementsFrom : Nat → Nat → Guarded (List CaseElement × Nat)
  | 0, _ => fault .endless
  | fuel + 1, pos => do
    let (element, pos) ← caseElement tokens pos
    if element.comma.isSome then
      let (elements, pos) ← caseElementsFrom fuel pos
      return (element :: elements, pos)
    else return ([element], pos)

def caseDecl (preamble : Preamble) (pos : Nat) : Guarded (CaseDecl × Nat) := do
  let (keyword, pos) ← take tokens pos
  let (elements, pos) ← caseElementsFrom tokens tokens.length pos
  ended tokens "end of case declaration" ⟨preamble, keyword, elements⟩ pos

def bindingDecl (preamble : Preamble) (pos : Nat) : Guarded (BindingDecl × Nat) := do
  let (keyword, pos) ← take tokens pos
  let (name, pos) ← expect tokens .identifier "a variable name" pos
  let (typeClause, pos) ← typeClause tokens pos
  let (initializer, pos) ← initializer tokens pos
  let (accessors, pos) ← groupAt tokens .leftBrace pos
  ended tokens "end of variable declaration"
    ⟨preamble, keyword, name, typeClause, initializer, accessors⟩ pos

def nominalHead (expected : String) (preamble : Preamble) (pos : Nat) :
    Guarded (NominalHead × Nat) := do
  let (keyword, pos) ← take tokens pos
  let (name, pos) ← expect tokens .identifier expected pos
  let (generics, pos) ← generics tokens pos
  let (inheritance, pos) ← inheritance tokens pos
  let (whereClause, pos) ← whereClause tokens pos
  return (⟨preamble, keyword, name, generics, inheritance, whereClause⟩, pos)

def extensionHead (preamble : Preamble) (pos : Nat) : Guarded (ExtensionHead × Nat) := do
  let (keyword, pos) ← take tokens pos
  let (extended, pos) ← type tokens pos
  let (inheritance, pos) ← inheritance tokens pos
  let (whereClause, pos) ← whereClause tokens pos
  return (⟨preamble, keyword, extended, inheritance, whereClause⟩, pos)

def rawOpening (preamble : Preamble) (pos : Nat) : Guarded (Opening × Nat) := do
  let (run, pos) ← rawRun tokens pos
  return (.leaf (.raw ⟨preamble, run⟩), pos)

def openingAfter (preamble : Preamble) (pos : Nat) : Guarded (Opening × Nat) := do
  match startOf (← current tokens pos) (some (← peekNth tokens 1 pos)) with
  | .enum =>
    let (head, pos) ← nominalHead tokens "an enum name" preamble pos
    return (.group (.enum head), pos)
  | .nominal =>
    let (head, pos) ← nominalHead tokens "a type name" preamble pos
    return (.group (.nominal head), pos)
  | .extension =>
    let (head, pos) ← extensionHead tokens preamble pos
    return (.group (.extension head), pos)
  | .enumCase =>
    match ← attempt (caseDecl tokens preamble pos) with
    | some (d, pos) => return (.leaf (.enumCase d), pos)
    | none => rawOpening tokens preamble pos
  | .binding =>
    match ← attempt (bindingDecl tokens preamble pos) with
    | some (d, pos) => return (.leaf (.binding d), pos)
    | none => rawOpening tokens preamble pos
  | .other => rawOpening tokens preamble pos

def opening (pos : Nat) : Guarded (Opening × Nat) := do
  let (preamble, pos) ← preamble tokens pos
  openingAfter tokens preamble pos

end Readers

/-! ### Cases and bindings -/

theorem caseElements_eq (ts : List Token) :
    Grammar.caseElements ts = do
      let (element, rest) ← Grammar.caseElement ts
      if element.comma.isSome then
        let (elements, rest) ← Grammar.caseElements rest
        return (element :: elements, rest)
      else return ([element], rest) := by
  rw [Grammar.caseElements]
  split
  next e he => rw [he, error_bind]
  next element rest helement =>
    rw [helement, ok_bind]
    dsimp only
    split
    · rcases Grammar.caseElements rest with _ | _ <;> rfl
    · rfl

variable {s : TokenStream} {t : Token} {ts rest : List Token} (hs : Ended s)

include hs

theorem initializer_index (h : rest <:+ s.tokens) :
    initializer s.toList (index s rest) = atIndex s (Grammar.initializer rest) := by
  cases rest with
  | nil => simp [initializer, current_nil, hs.kind_endOfFile, Grammar.initializer]
  | cons t ts =>
    rw [initializer, current_cons h, ok_bind, Grammar.initializer]
    split
    · rw [take_cons hs h, ok_bind]
      dsimp only
      rw [expr_index hs (suffix_of_cons h)]
      exact atIndex_bind fun value rest _ ↦ rfl
    · rfl

theorem typeClause_index (h : rest <:+ s.tokens) :
    typeClause s.toList (index s rest) = atIndex s (Grammar.typeClause rest) := by
  cases rest with
  | nil => simp [typeClause, current_nil, hs.kind_endOfFile, Grammar.typeClause]
  | cons t ts =>
    rw [typeClause, current_cons h, ok_bind, Grammar.typeClause]
    split
    · rw [take_cons hs h, ok_bind]
      dsimp only
      rw [type_index hs (suffix_of_cons h)]
      exact atIndex_bind fun type rest _ ↦ rfl
    · rfl

theorem ended_index (h : rest <:+ s.tokens) {α : Type} (expected : String) (a : α) :
    ended s.toList expected a (index s rest) =
      atIndex s (if Grammar.atDeclEnd rest then .ok (a, rest)
        else .error (Grammar.unexpected expected rest)) := by
  rw [ended, atDeclEnd]
  cases rest with
  | nil => simp [current_nil, hs.kind_endOfFile, Grammar.atDeclEnd]
  | cons t ts =>
    have hend : (do return t.kind == .semicolon || t.kind == .rightBrace ||
        t.kind == .endOfFile || t.startsLine : Guarded Bool) =
        .ok (Grammar.atDeclEnd (t :: ts)) := by
      rw [beq_false_of_ne (hs.kind_head h), Bool.or_false]
      rfl
    rw [refuse_unexpected hs h, current_cons h, ok_bind, hend, ok_bind]
    split <;> rfl

theorem caseElement_index (h : rest <:+ s.tokens) :
    caseElement s.toList (index s rest) = atIndex s (Grammar.caseElement rest) := by
  rw [caseElement, expect_index hs h (by decide)]
  refine atIndex_bind_of_reads (Grammar.reads_expect _ _ rest) h fun name ts₁ h₁ ↦ ?_
  dsimp only
  rw [groupAt_index hs h₁ (by decide)]
  refine atIndex_bind_of_reads (Grammar.reads_groupAt _ ts₁) h₁ fun value ts₂ h₂ ↦ ?_
  dsimp only
  rw [initializer_index hs h₂]
  refine atIndex_bind_of_reads (Grammar.reads_initializer ts₂) h₂ fun raw ts₃ h₃ ↦ ?_
  dsimp only
  rw [takeIf_index hs h₃ (by decide)]
  rfl

theorem caseElementsFrom_index {fuel : Nat} (h : rest <:+ s.tokens) (hfuel : rest.length < fuel) :
    caseElementsFrom s.toList fuel (index s rest) = atIndex s (Grammar.caseElements rest) := by
  induction fuel generalizing rest with
  | zero => omega
  | succ fuel ih =>
    rw [caseElementsFrom, caseElement_index hs h, caseElements_eq]
    refine atIndex_bind fun element ts helement ↦ ?_
    have hts := suffix_of_reads (Grammar.reads_caseElement rest) helement h
    have hlt := Grammar.length_lt_of_caseElement helement
    dsimp only
    split
    · rw [ih hts (by omega)]
      exact atIndex_bind fun elements rest _ ↦ rfl
    · rfl

theorem caseDecl_index (h : t :: ts <:+ s.tokens) (p : Preamble) :
    caseDecl s.toList p (index s (t :: ts)) = atIndex s (Grammar.caseDecl p t ts) := by
  have htail := suffix_of_cons h
  rw [caseDecl, take_cons hs h, ok_bind]
  dsimp only
  rw [caseElementsFrom_index hs htail (length_lt_toList htail)]
  refine atIndex_bind_of_reads (Grammar.reads_caseElements ts) htail fun elements rest hrest ↦ ?_
  exact ended_index hs hrest _ _

theorem bindingDecl_index (h : t :: ts <:+ s.tokens) (p : Preamble) :
    bindingDecl s.toList p (index s (t :: ts)) = atIndex s (Grammar.bindingDecl p t ts) := by
  have htail := suffix_of_cons h
  rw [bindingDecl, take_cons hs h, ok_bind]
  dsimp only
  rw [expect_index hs htail (by decide)]
  refine atIndex_bind_of_reads (Grammar.reads_expect _ _ ts) htail fun name ts₁ h₁ ↦ ?_
  dsimp only
  rw [typeClause_index hs h₁]
  refine atIndex_bind_of_reads (Grammar.reads_typeClause ts₁) h₁ fun clause ts₂ h₂ ↦ ?_
  dsimp only
  rw [initializer_index hs h₂]
  refine atIndex_bind_of_reads (Grammar.reads_initializer ts₂) h₂ fun value ts₃ h₃ ↦ ?_
  dsimp only
  rw [groupAt_index hs h₃ (by decide)]
  refine atIndex_bind_of_reads (Grammar.reads_groupAt _ ts₃) h₃ fun accessors ts₄ h₄ ↦ ?_
  exact ended_index hs h₄ _ _

/-! ### Openings -/

theorem nominalHead_index (h : t :: ts <:+ s.tokens) (expected : String) (p : Preamble) :
    nominalHead s.toList expected p (index s (t :: ts)) =
      atIndex s (Grammar.nominalHead expected p t ts) := by
  have htail := suffix_of_cons h
  rw [nominalHead, take_cons hs h, ok_bind]
  dsimp only
  rw [expect_index hs htail (by decide)]
  refine atIndex_bind_of_reads (Grammar.reads_expect _ _ ts) htail fun name ts₁ h₁ ↦ ?_
  dsimp only
  rw [generics_index hs h₁]
  refine atIndex_bind_of_reads (Grammar.reads_generics ts₁) h₁ fun generics ts₂ h₂ ↦ ?_
  dsimp only
  rw [inheritance_index hs h₂]
  refine atIndex_bind_of_reads (Grammar.reads_inheritance ts₂) h₂ fun inheritance ts₃ h₃ ↦ ?_
  dsimp only
  rw [whereClause_index hs h₃]
  rfl

theorem extensionHead_index (h : t :: ts <:+ s.tokens) (p : Preamble) :
    extensionHead s.toList p (index s (t :: ts)) =
      atIndex s (Grammar.extensionHead p t ts) := by
  have htail := suffix_of_cons h
  rw [extensionHead, take_cons hs h, ok_bind]
  dsimp only
  rw [type_index hs htail]
  refine atIndex_bind_of_reads (Grammar.reads_type ts) htail fun extended ts₁ h₁ ↦ ?_
  dsimp only
  rw [inheritance_index hs h₁]
  refine atIndex_bind_of_reads (Grammar.reads_inheritance ts₁) h₁ fun inheritance ts₂ h₂ ↦ ?_
  dsimp only
  rw [whereClause_index hs h₂]
  rfl

theorem rawRun_nil : rawRun s.toList (index s []) =
    refuse (Grammar.unexpected "a declaration" []) := by
  obtain ⟨fuel, hfuel⟩ := exists_fuel (length_lt_toList (@List.nil_suffix _ s.tokens))
  rw [rawRun, hfuel, runFrom, current_nil, ok_bind, List.getLast?_nil, rawEnds,
    hs.kind_endOfFile, unexpected_endOfFile hs]
  rfl

theorem rawRun_cons (h : t :: ts <:+ s.tokens) :
    rawRun s.toList (index s (t :: ts)) =
      if t.kind = .rightBrace then refuse (Grammar.unexpected "a declaration" (t :: ts))
      else if t.kind.closes then refuse (Grammar.unbalanced t)
      else afterRaw s [t] t (Grammar.rawRun (if t.kind.opens then 1 else 0) ts) := by
  have hkind := hs.kind_head h
  have htail := suffix_of_cons h
  have hlt := length_lt_toList h
  obtain ⟨fuel, hfuel⟩ := exists_fuel hlt
  rw [rawRun, hfuel, runFrom, current_cons h, ok_bind, List.getLast?_nil, rawEnds]
  by_cases hbrace : t.kind = .rightBrace
  · rw [if_pos hbrace, if_neg (by simp [hbrace]), if_pos (Or.inl hbrace), unexpected_cons hs h]
    rfl
  by_cases hcloses : t.kind.closes
  · have hparen : t.kind = .rightParen ∨ t.kind = .rightSquare := by
      cases hk : t.kind <;> simp_all [TokenKind.closes]
    rw [if_neg hbrace, if_pos hcloses, if_pos hparen]
    rfl
  · have hparen : ¬ (t.kind = .rightParen ∨ t.kind = .rightSquare) := by
      rintro (hk | hk) <;> simp [hk, TokenKind.closes] at hcloses
    have hgo : nest 0 t = .ok (if t.kind.opens then 1 else 0) := by
      rw [nest_eq fun h ↦ absurd h hcloses, if_neg hcloses]
    rw [if_neg hbrace, if_neg hcloses, if_neg hparen, if_neg (by simp),
      if_neg (by simp [hbrace, hkind]), both_ok, ok_bind, Bool.and_false,
      if_neg Bool.false_ne_true, if_neg (by simp), hgo, ok_bind, take_cons hs h, ok_bind]
    exact rawRun_from hs htail (by simp at hlt; omega) rfl

theorem rawOpening_index (h : rest <:+ s.tokens) (p : Preamble) :
    rawOpening s.toList p (index s rest) = atIndex s (Grammar.rawOpening p rest) := by
  cases rest with
  | nil =>
    rw [rawOpening, rawRun_nil hs]
    rfl
  | cons t ts =>
    rw [rawOpening, rawRun_cons hs h, Grammar.rawOpening, Grammar.rawDecl]
    split
    · rfl
    split
    · rfl
    · rcases Grammar.rawRun (if t.kind.opens then 1 else 0) ts with (_ | _) | _ <;> rfl

/-- The token behind the last one is the last one, which is no name. -/
theorem startOf_next (t : Token) (next : Option Token) :
    startOf t (some (next.getD s.endOfFile)) = startOf t next := by
  cases next with
  | none => simp [startOf, hs.kind_endOfFile]
  | some t => rfl

omit hs in
theorem attempt_atIndex {α : Type} (r : Grammar.Reading (α × List Token)) :
    attempt (atIndex s r) = .ok (r.toOption.map fun (a, rest) ↦ (a, index s rest)) := by
  cases r <;> rfl

theorem openingAfter_index (h : rest <:+ s.tokens) (p : Preamble) :
    openingAfter s.toList p (index s rest) = atIndex s (Grammar.openingAfter p rest) := by
  cases rest with
  | nil =>
    have hstart : startOf s.endOfFile (some s.endOfFile) = .other := by
      simp [startOf, hs.kind_endOfFile, hs.text_endOfFile]
    rw [openingAfter, current_nil, ok_bind, peekNth_index h, ok_bind, List.getElem?_nil,
      Option.getD_none, hstart]
    exact rawOpening_index hs h p
  | cons t ts =>
    rw [openingAfter, current_cons h, ok_bind, peekNth_index h, ok_bind,
      List.getElem?_cons_succ, ← List.head?_eq_getElem?, startOf_next hs, Grammar.openingAfter]
    cases startOf t ts.head? with
    | enum =>
      dsimp only
      rw [nominalHead_index hs h]
      exact atIndex_bind fun head rest _ ↦ rfl
    | nominal =>
      dsimp only
      rw [nominalHead_index hs h]
      exact atIndex_bind fun head rest _ ↦ rfl
    | extension =>
      dsimp only
      rw [extensionHead_index hs h]
      exact atIndex_bind fun head rest _ ↦ rfl
    | enumCase =>
      dsimp only
      rw [caseDecl_index hs h, attempt_atIndex]
      cases Grammar.caseDecl p t ts with
      | error e => exact rawOpening_index hs h p
      | ok r => rfl
    | binding =>
      dsimp only
      rw [bindingDecl_index hs h, attempt_atIndex]
      cases Grammar.bindingDecl p t ts with
      | error e => exact rawOpening_index hs h p
      | ok r => rfl
    | other => exact rawOpening_index hs h p

theorem opening_index (h : rest <:+ s.tokens) :
    opening s.toList (index s rest) = atIndex s (Grammar.opening rest) := by
  rw [opening, preamble_index hs h]
  refine atIndex_bind_of_reads (Grammar.reads_preamble rest) h fun p ts hp ↦ ?_
  exact openingAfter_index hs hp p

end EnumForge.Checked
