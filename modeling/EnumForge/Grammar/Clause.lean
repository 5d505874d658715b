import EnumForge.Grammar.Run
import EnumForge.Grammar.Shape
import EnumForge.Tree.Decl

/-!
# Clauses of a declaration

Attributes, modifiers, generic parameters, types, inheritance and `where` clauses.  Each reader
takes a node from the head of the tokens and returns the rest; `Reads` says that the node and the
rest are the tokens that were given, so no reader loses, repeats or invents a token.
-/

namespace EnumForge.Grammar

/-- A value, or a failure placed at a byte offset. -/
abbrev Reading := Except (ParseError Nat)

/-- A success accounts for every token. -/
def Reads {α : Type} [Node α] (p : Reading (α × List Token)) (ts : List Token) : Prop :=
  ∀ a rest, p = .ok (a, rest) → Node.tokens a ++ rest = ts

theorem ok_pair_inj {ε α β : Type} {a a' : α} {b b' : β} :
    (Except.ok (a, b) : Except ε (α × β)) = .ok (a', b') ↔ a = a' ∧ b = b' := by simp

/-- Something else was expected where `ts` starts. -/
def unexpected (expected : String) : List Token → ParseError Nat
  | [] => .unexpectedEnd expected
  | t :: _ => .unexpectedToken expected t.text t.offset

def unbalanced (t : Token) : ParseError Nat := .unbalancedDelimiter t.text t.offset

/-- The next token, if it has the given kind. -/
def takeKind (kind : TokenKind) : List Token → Option Token × List Token
  | [] => (none, [])
  | t :: ts => if t.kind = kind then (some t, ts) else (none, t :: ts)

theorem takeKind_append (kind : TokenKind) (ts : List Token) :
    Node.tokens (takeKind kind ts).1 ++ (takeKind kind ts).2 = ts := by
  unfold takeKind
  split
  · rfl
  · split <;> rfl

/-- The next token, which must have the given kind. -/
def expect (kind : TokenKind) (expected : String) : List Token → Reading (Token × List Token)
  | [] => .error (unexpected expected [])
  | t :: ts => if t.kind = kind then .ok (t, ts) else .error (unexpected expected (t :: ts))

theorem reads_expect (kind : TokenKind) (expected : String) (ts : List Token) :
    Reads (expect kind expected ts) ts := by
  intro t rest h
  unfold expect at h
  split at h
  · simp at h
  · split at h
    · obtain ⟨rfl, rfl⟩ := ok_pair_inj.1 h
      rfl
    · simp at h

theorem length_lt_of_expect {kind : TokenKind} {expected : String} {ts rest : List Token}
    {t : Token} (h : expect kind expected ts = .ok (t, rest)) : rest.length < ts.length := by
  have := congrArg List.length (reads_expect kind expected ts t rest h)
  simp [Node.tokens] at this
  omega

/-- A group in parentheses, brackets or braces, if one of the kind `left` starts here. -/
def groupAt (left : TokenKind) : List Token → Reading (Option (List Token) × List Token)
  | [] => .ok (none, [])
  | t :: ts =>
    if t.kind = left then
      match balancedRun 1 ts with
      | some (run, rest) => .ok (some (t :: run), rest)
      | none => .error (unbalanced t)
    else .ok (none, t :: ts)

theorem reads_groupAt (left : TokenKind) (ts : List Token) : Reads (groupAt left ts) ts := by
  intro a rest h
  unfold groupAt at h
  split at h
  · obtain ⟨rfl, rfl⟩ := ok_pair_inj.1 h
    rfl
  · split at h
    · split at h
      next hr =>
        obtain ⟨rfl, rfl⟩ := ok_pair_inj.1 h
        simpa [Node.tokens] using append_of_balancedRun hr
      next => simp at h
    · obtain ⟨rfl, rfl⟩ := ok_pair_inj.1 h
      rfl

/-- The parenthesised group that belongs to `name`: it follows without anything between. -/
def argumentsOf (name : Token) (ts : List Token) : Reading (Option (List Token) × List Token) :=
  if name.trailing.isEmpty then groupAt .leftParen ts else .ok (none, ts)

theorem reads_argumentsOf (name : Token) (ts : List Token) : Reads (argumentsOf name ts) ts := by
  intro a rest h
  unfold argumentsOf at h
  split at h
  · exact reads_groupAt _ _ a rest h
  · obtain ⟨rfl, rfl⟩ := ok_pair_inj.1 h
    rfl

/-! ### Attributes -/

/-- The attribute after its `@`. -/
def attributeAfter (atSign : Token) : List Token → Reading (Attribute × List Token)
  | [] => .error (unexpected "an attribute name" [])
  | name :: ts =>
    if name.kind = .identifier ∨ name.kind = .keyword then do
      let (arguments, rest) ← argumentsOf name ts
      return (⟨atSign, name, arguments⟩, rest)
    else .error (unexpected "an attribute name" (name :: ts))

theorem reads_attributeAfter (atSign : Token) (ts : List Token) :
    Reads (attributeAfter atSign ts) (atSign :: ts) := by
  intro a rest h
  unfold attributeAfter at h
  split at h
  · simp at h
  · split at h
    · obtain ⟨⟨arguments, ts'⟩, ha, h⟩ := bind_eq_ok.1 h
      obtain ⟨rfl, rfl⟩ := ok_pair_inj.1 h
      simpa [Node.tokens] using reads_argumentsOf _ _ _ _ ha
    · simp at h

theorem length_lt_of_attributeAfter {atSign : Token} {a : Attribute} {ts rest : List Token}
    (h : attributeAfter atSign ts = .ok (a, rest)) : rest.length < (atSign :: ts).length := by
  have := congrArg List.length (reads_attributeAfter atSign ts a rest h)
  simp [Node.tokens] at this ⊢
  omega

def attributes (ts : List Token) : Reading (List Attribute × List Token) :=
  match ts with
  | [] => .ok ([], [])
  | t :: ts =>
    if t.kind = .atSign then
      match _first : attributeAfter t ts with
      | .error e => .error e
      | .ok (a, rest) =>
        match attributes rest with
        | .error e => .error e
        | .ok (as, rest) => .ok (a :: as, rest)
    else .ok ([], t :: ts)
termination_by ts.length
decreasing_by exact length_lt_of_attributeAfter _first

theorem reads_attributes (ts : List Token) : Reads (attributes ts) ts := by
  intro as rest h
  fun_induction attributes ts generalizing as rest with
  | case1 =>
    obtain ⟨rfl, rfl⟩ := ok_pair_inj.1 h
    rfl
  | case2 | case3 => simp at h
  | case4 t ts _ a rest₁ first as₁ rest₂ _ ih =>
    obtain ⟨rfl, rfl⟩ := ok_pair_inj.1 h
    rw [← reads_attributeAfter t ts a rest₁ first, ← ih as₁ rest₂ ‹_›]
    simp [Node.tokens]
  | case5 =>
    obtain ⟨rfl, rfl⟩ := ok_pair_inj.1 h
    rfl

/-! ### Modifiers -/

def modifierWords : List String :=
  ["public", "private", "fileprivate", "internal", "package", "open", "final", "indirect",
   "static", "override", "required", "convenience", "lazy", "weak", "unowned", "mutating",
   "nonmutating", "nonisolated", "dynamic", "optional"]

/-- Keywords before which `class` is a modifier. -/
def classMemberKeywords : List String := ["var", "let", "func", "subscript", "init", "typealias"]

/-- Whether `t` is a modifier, judged by the token after it. -/
def isModifier (t : Token) (next : Option Token) : Bool :=
  (t.kind == .keyword || t.kind == .identifier) &&
    (modifierWords.contains t.text && next.any (fun n ↦
        n.kind == .keyword || n.kind == .identifier || n.kind == .leftParen) ||
      t.isKeyword "class" && next.any (fun n ↦
        n.kind == .keyword && classMemberKeywords.contains n.text ||
          modifierWords.contains n.text))

def modifiers (ts : List Token) : Reading (List Modifier × List Token) :=
  match ts with
  | [] => .ok ([], [])
  | t :: ts =>
    if isModifier t ts.head? then
      match _detail : argumentsOf t ts with
      | .error e => .error e
      | .ok (detail, rest) =>
        match modifiers rest with
        | .error e => .error e
        | .ok (ms, rest) => .ok (⟨t, detail⟩ :: ms, rest)
    else .ok ([], t :: ts)
termination_by ts.length
decreasing_by
  have := congrArg List.length (reads_argumentsOf t ts detail rest _detail)
  simp at this ⊢
  omega

theorem reads_modifiers (ts : List Token) : Reads (modifiers ts) ts := by
  intro ms rest h
  fun_induction modifiers ts generalizing ms rest with
  | case1 =>
    obtain ⟨rfl, rfl⟩ := ok_pair_inj.1 h
    rfl
  | case2 | case3 => simp at h
  | case4 t ts _ detail rest₁ hd ms₁ rest₂ _ ih =>
    obtain ⟨rfl, rfl⟩ := ok_pair_inj.1 h
    rw [← reads_argumentsOf t ts detail rest₁ hd, ← ih ms₁ rest₂ ‹_›]
    simp [Node.tokens]
  | case5 =>
    obtain ⟨rfl, rfl⟩ := ok_pair_inj.1 h
    rfl

/-- Attributes and modifiers. -/
def preamble (ts : List Token) : Reading (Preamble × List Token) := do
  let (attributes, ts) ← attributes ts
  let (modifiers, ts) ← modifiers ts
  return (⟨attributes, modifiers⟩, ts)

theorem reads_preamble (ts : List Token) : Reads (preamble ts) ts := by
  intro p rest h
  obtain ⟨⟨as, ts₁⟩, ha, h⟩ := bind_eq_ok.1 h
  obtain ⟨⟨ms, ts₂⟩, hm, h⟩ := bind_eq_ok.1 h
  obtain ⟨rfl, rfl⟩ := ok_pair_inj.1 h
  rw [← reads_attributes ts as ts₁ ha, ← reads_modifiers ts₁ ms _ hm]
  simp [Node.tokens]

/-! ### Types and expressions -/

def type (ts : List Token) : Reading (TypeRef × List Token) :=
  match typeRun 0 false ts with
  | none => .error ((ts.head?.map unbalanced).getD (unexpected "a type" ts))
  | some ([], rest) => .error (unexpected "a type" rest)
  | some (run, rest) => .ok (typeOfTokens run, rest)

theorem reads_type (ts : List Token) : Reads (type ts) ts := by
  intro t rest h
  unfold type at h
  split at h
  · simp at h
  · simp at h
  next run rest' _ hr =>
    obtain ⟨rfl, rfl⟩ := ok_pair_inj.1 h
    rw [tokens_typeOfTokens]
    exact append_of_typeRun hr

theorem length_lt_of_type {t : TypeRef} {ts rest : List Token} (h : type ts = .ok (t, rest)) :
    rest.length < ts.length := by
  unfold type at h
  split at h
  · simp at h
  · simp at h
  next run rest' hne hr =>
    obtain ⟨rfl, rfl⟩ := ok_pair_inj.1 h
    have := congrArg List.length (append_of_typeRun hr)
    cases run with
    | nil => exact absurd rfl hne
    | cons t run => simp at this; omega

theorem tokens_ne_nil_of_type {t : TypeRef} {ts rest : List Token} (h : type ts = .ok (t, rest)) :
    Node.tokens t ≠ [] := by
  intro hnil
  have hlt := length_lt_of_type h
  rw [← reads_type _ _ _ h, hnil, List.nil_append] at hlt
  exact Nat.lt_irrefl _ hlt

def expr (ts : List Token) : Reading (Expr × List Token) :=
  match exprRun 0 none ts with
  | none => .error ((ts.head?.map unbalanced).getD (unexpected "an expression" ts))
  | some ([], rest) => .error (unexpected "an expression" rest)
  | some (run, rest) => .ok (exprOfTokens run, rest)

theorem reads_expr (ts : List Token) : Reads (expr ts) ts := by
  intro e rest h
  unfold expr at h
  split at h
  · simp at h
  · simp at h
  next run rest' _ hr =>
    obtain ⟨rfl, rfl⟩ := ok_pair_inj.1 h
    rw [tokens_exprOfTokens]
    exact append_of_exprRun hr

/-! ### Clauses of a group -/

/-- Generic parameters, where an operator starts with an angle bracket. -/
def generics (ts : List Token) : Reading (Option (List Token) × List Token) :=
  match ts with
  | [] => .ok (none, [])
  | t :: rest =>
    if t.kind = .operator ∧ t.text.toList.head? = some '<' then
      match angleRun 0 ts with
      | some (run, rest) => .ok (some run, rest)
      | none => .error (unbalanced t)
    else .ok (none, t :: rest)

theorem reads_generics (ts : List Token) : Reads (generics ts) ts := by
  intro a rest h
  unfold generics at h
  split at h
  · obtain ⟨rfl, rfl⟩ := ok_pair_inj.1 h
    rfl
  · split at h
    · split at h
      next hr =>
        obtain ⟨rfl, rfl⟩ := ok_pair_inj.1 h
        simpa [Node.tokens] using append_of_angleRun hr
      next => simp at h
    · obtain ⟨rfl, rfl⟩ := ok_pair_inj.1 h
      rfl

/-- A `where` clause runs up to the next opening brace. -/
def whereClause : List Token → Option (List Token) × List Token
  | [] => (none, [])
  | t :: ts =>
    if t.isKeyword "where" then
      (some (t :: ts.takeWhile (·.kind != .leftBrace)), ts.dropWhile (·.kind != .leftBrace))
    else (none, t :: ts)

theorem whereClause_append (ts : List Token) :
    Node.tokens (whereClause ts).1 ++ (whereClause ts).2 = ts := by
  unfold whereClause
  split
  · rfl
  · split <;> simp [Node.tokens]

/-- Whether another inherited type follows a comma: a comma right before the member block is a
trailing one. -/
def continuesList (comma : Option Token) (rest : List Token) : Bool :=
  comma.isSome && !rest.head?.any (·.kind == .leftBrace)

/-- The types of an inheritance clause. -/
def inheritedTypes (ts : List Token) : Reading (List InheritedType × List Token) :=
  match _type : type ts with
  | .error e => .error e
  | .ok (t, rest) =>
    if continuesList (takeKind .comma rest).1 (takeKind .comma rest).2 then
      match inheritedTypes (takeKind .comma rest).2 with
      | .error e => .error e
      | .ok (is, rest') => .ok (⟨t, (takeKind .comma rest).1⟩ :: is, rest')
    else .ok ([⟨t, (takeKind .comma rest).1⟩], (takeKind .comma rest).2)
termination_by ts.length
decreasing_by
  have h₁ := length_lt_of_type _type
  have h₂ := congrArg List.length (takeKind_append .comma rest)
  simp at h₂
  omega

theorem reads_inheritedTypes (ts : List Token) : Reads (inheritedTypes ts) ts := by
  intro is rest h
  fun_induction inheritedTypes ts generalizing is rest with
  | case1 | case2 => simp at h
  | case3 ts t rest₁ ht _ is₁ rest₂ _ ih =>
    obtain ⟨rfl, rfl⟩ := ok_pair_inj.1 h
    have htail : Node.tokens is₁ ++ rest₂ = (takeKind .comma rest₁).2 := ih is₁ rest₂ ‹_›
    have hcomma := takeKind_append .comma rest₁
    rw [← htail] at hcomma
    rw [← reads_type ts t rest₁ ht]
    simpa [Node.tokens] using hcomma
  | case4 ts t rest₁ ht =>
    obtain ⟨rfl, rfl⟩ := ok_pair_inj.1 h
    rw [← reads_type ts t rest₁ ht]
    simpa [Node.tokens] using takeKind_append .comma rest₁

def inheritance (ts : List Token) : Reading (Option InheritanceClause × List Token) :=
  match ts with
  | [] => .ok (none, [])
  | colon :: rest =>
    if colon.kind = .colon then do
      let (types, rest) ← inheritedTypes rest
      return (some ⟨colon, types⟩, rest)
    else .ok (none, colon :: rest)

theorem reads_inheritance (ts : List Token) : Reads (inheritance ts) ts := by
  intro a rest h
  unfold inheritance at h
  split at h
  · obtain ⟨rfl, rfl⟩ := ok_pair_inj.1 h
    rfl
  · split at h
    · obtain ⟨⟨types, ts'⟩, ht, h⟩ := bind_eq_ok.1 h
      obtain ⟨rfl, rfl⟩ := ok_pair_inj.1 h
      simpa [Node.tokens] using reads_inheritedTypes _ _ _ ht
    · obtain ⟨rfl, rfl⟩ := ok_pair_inj.1 h
      rfl

end EnumForge.Grammar
