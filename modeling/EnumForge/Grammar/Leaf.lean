import EnumForge.Grammar.Clause

/-!
# Declarations without members

Enum cases, bindings of one name, and raw declarations.  A case or a binding that does not come
out even is read again as a raw declaration, from the same token on.
-/

namespace EnumForge.Grammar

/-- Whether a complete declaration may stand before `ts`. -/
def atDeclEnd : List Token → Bool
  | [] => true
  | t :: _ => t.kind == .semicolon || t.kind == .rightBrace || t.startsLine

/-- `= value`, if an equals sign comes next. -/
def initializer (ts : List Token) : Reading (Option Initializer × List Token) :=
  match ts with
  | [] => .ok (none, [])
  | equal :: rest =>
    if equal.kind = .equal then do
      let (value, rest) ← expr rest
      return (some ⟨equal, value⟩, rest)
    else .ok (none, equal :: rest)

theorem reads_initializer (ts : List Token) : Reads (initializer ts) ts := by
  intro a rest h
  unfold initializer at h
  split at h
  · obtain ⟨rfl, rfl⟩ := ok_pair_inj.1 h
    rfl
  · split at h
    · obtain ⟨⟨value, ts'⟩, hv, h⟩ := bind_eq_ok.1 h
      obtain ⟨rfl, rfl⟩ := ok_pair_inj.1 h
      simpa [Node.tokens] using reads_expr _ _ _ hv
    · obtain ⟨rfl, rfl⟩ := ok_pair_inj.1 h
      rfl

/-- `: Type`, if a colon comes next. -/
def typeClause (ts : List Token) : Reading (Option TypeClause × List Token) :=
  match ts with
  | [] => .ok (none, [])
  | colon :: rest =>
    if colon.kind = .colon then do
      let (type, rest) ← type rest
      return (some ⟨colon, type⟩, rest)
    else .ok (none, colon :: rest)

theorem reads_typeClause (ts : List Token) : Reads (typeClause ts) ts := by
  intro a rest h
  unfold typeClause at h
  split at h
  · obtain ⟨rfl, rfl⟩ := ok_pair_inj.1 h
    rfl
  · split at h
    · obtain ⟨⟨type, ts'⟩, ht, h⟩ := bind_eq_ok.1 h
      obtain ⟨rfl, rfl⟩ := ok_pair_inj.1 h
      simpa [Node.tokens] using reads_type _ _ _ ht
    · obtain ⟨rfl, rfl⟩ := ok_pair_inj.1 h
      rfl

/-! ### Cases -/

/-- One name of a case list with its comma. -/
def caseElement (ts : List Token) : Reading (CaseElement × List Token) := do
  let (name, ts) ← expect .identifier "a case name" ts
  let (associatedValue, ts) ← groupAt .leftParen ts
  let (rawValue, ts) ← initializer ts
  return (⟨name, associatedValue, rawValue, (takeKind .comma ts).1⟩, (takeKind .comma ts).2)

theorem reads_caseElement (ts : List Token) : Reads (caseElement ts) ts := by
  intro e rest h
  obtain ⟨⟨name, ts₁⟩, hn, h⟩ := bind_eq_ok.1 h
  obtain ⟨⟨value, ts₂⟩, hv, h⟩ := bind_eq_ok.1 h
  obtain ⟨⟨raw, ts₃⟩, hr, h⟩ := bind_eq_ok.1 h
  obtain ⟨rfl, rfl⟩ := ok_pair_inj.1 h
  rw [← reads_expect _ _ _ _ _ hn, ← reads_groupAt _ _ _ _ hv, ← reads_initializer _ _ _ hr]
  simpa [Node.tokens] using takeKind_append .comma ts₃

theorem length_lt_of_caseElement {e : CaseElement} {ts rest : List Token}
    (h : caseElement ts = .ok (e, rest)) : rest.length < ts.length := by
  have := congrArg List.length (reads_caseElement ts e rest h)
  simp [Node.tokens] at this
  omega

/-- The names of a case list, as long as commas follow. -/
def caseElements (ts : List Token) : Reading (List CaseElement × List Token) :=
  match _first : caseElement ts with
  | .error e => .error e
  | .ok (element, rest) =>
    if element.comma.isSome then
      match caseElements rest with
      | .error e => .error e
      | .ok (elements, rest) => .ok (element :: elements, rest)
    else .ok ([element], rest)
termination_by ts.length
decreasing_by exact length_lt_of_caseElement _first

theorem reads_caseElements (ts : List Token) : Reads (caseElements ts) ts := by
  intro es rest h
  fun_induction caseElements ts generalizing es rest with
  | case1 | case2 => simp at h
  | case3 ts e rest₁ he _ es₁ rest₂ _ ih =>
    obtain ⟨rfl, rfl⟩ := ok_pair_inj.1 h
    rw [← reads_caseElement ts e rest₁ he, ← ih es₁ rest₂ ‹_›]
    simp [Node.tokens]
  | case4 ts e rest₁ he =>
    obtain ⟨rfl, rfl⟩ := ok_pair_inj.1 h
    simpa [Node.tokens] using reads_caseElement ts e rest₁ he

/-- A case list after its keyword. -/
def caseDecl (preamble : Preamble) (keyword : Token) (ts : List Token) :
    Reading (CaseDecl × List Token) := do
  let (elements, ts) ← caseElements ts
  if atDeclEnd ts then return (⟨preamble, keyword, elements⟩, ts)
  else throw (unexpected "end of case declaration" ts)

theorem tokens_of_caseDecl {p : Preamble} {keyword : Token} {ts rest : List Token} {d : CaseDecl}
    (h : caseDecl p keyword ts = .ok (d, rest)) :
    ∃ run, Node.tokens d = Node.tokens p ++ keyword :: run ∧ run ++ rest = ts := by
  obtain ⟨⟨es, ts₁⟩, he, h⟩ := bind_eq_ok.1 h
  dsimp only at h
  split at h
  · obtain ⟨rfl, rfl⟩ := ok_pair_inj.1 h
    exact ⟨_, rfl, reads_caseElements _ _ _ he⟩
  · simp [throw, throwThe, MonadExceptOf.throw] at h

/-! ### Bindings -/

/-- A binding of one name after its keyword. -/
def bindingDecl (preamble : Preamble) (keyword : Token) (ts : List Token) :
    Reading (BindingDecl × List Token) := do
  let (name, ts) ← expect .identifier "a variable name" ts
  let (typeClause, ts) ← typeClause ts
  let (initializer, ts) ← initializer ts
  let (accessors, ts) ← groupAt .leftBrace ts
  if atDeclEnd ts then
    return (⟨preamble, keyword, name, typeClause, initializer, accessors⟩, ts)
  else throw (unexpected "end of variable declaration" ts)

theorem tokens_of_bindingDecl {p : Preamble} {keyword : Token} {ts rest : List Token}
    {d : BindingDecl} (h : bindingDecl p keyword ts = .ok (d, rest)) :
    ∃ run, Node.tokens d = Node.tokens p ++ keyword :: run ∧ run ++ rest = ts := by
  obtain ⟨⟨name, ts₁⟩, hn, h⟩ := bind_eq_ok.1 h
  obtain ⟨⟨ann, ts₂⟩, ha, h⟩ := bind_eq_ok.1 h
  obtain ⟨⟨init, ts₃⟩, hi, h⟩ := bind_eq_ok.1 h
  obtain ⟨⟨acc, ts₄⟩, hacc, h⟩ := bind_eq_ok.1 h
  dsimp only at h
  split at h
  · obtain ⟨rfl, rfl⟩ := ok_pair_inj.1 h
    refine ⟨_, rfl, ?_⟩
    rw [← reads_expect _ _ _ _ _ hn, ← reads_typeClause _ _ _ ha, ← reads_initializer _ _ _ hi,
      ← reads_groupAt _ _ _ _ hacc]
    simp [Node.tokens]
  · simp [throw, throwThe, MonadExceptOf.throw] at h

/-! ### Raw declarations -/

/-- Everything up to the end of the declaration.  The first token is taken whatever it is, unless
it closes a group. -/
def rawDecl (preamble : Preamble) : List Token → Reading (RawDecl × List Token)
  | [] => .error (unexpected "a declaration" [])
  | t :: ts =>
    if t.kind = .rightBrace then .error (unexpected "a declaration" (t :: ts))
    else if t.kind.closes then .error (unbalanced t)
    else
      match rawRun (if t.kind.opens then 1 else 0) ts with
      | .ok (run, rest) => .ok (⟨preamble, t :: run⟩, rest)
      | .error .unclosed => .error (unbalanced t)
      | .error (.unopened u) => .error (unbalanced u)

theorem tokens_of_rawDecl {p : Preamble} {ts rest : List Token} {d : RawDecl}
    (h : rawDecl p ts = .ok (d, rest)) :
    ∃ run, Node.tokens d = Node.tokens p ++ run ∧ run ≠ [] ∧ run ++ rest = ts := by
  unfold rawDecl at h
  split at h
  · simp at h
  split at h
  · simp at h
  split at h
  · simp at h
  split at h
  next hr =>
    obtain ⟨rfl, rfl⟩ := ok_pair_inj.1 h
    exact ⟨_, rfl, by simp, by simpa using append_of_rawRun hr⟩
  next => simp at h
  next => simp at h

end EnumForge.Grammar
