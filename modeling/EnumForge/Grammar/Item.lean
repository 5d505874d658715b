import EnumForge.Grammar.Leaf

/-!
# Items

A list of items is read up to the end of its block.  An item is a declaration with an optional
semicolon; a group contains the items of its member block.
-/

namespace EnumForge.Grammar

/-- A group up to its member block. -/
inductive GroupHead where
  | enum (head : NominalHead)
  | nominal (head : NominalHead)
  | extension (head : ExtensionHead)

namespace GroupHead

def tokens : GroupHead → List Token
  | enum h => Node.tokens h
  | nominal h => Node.tokens h
  | extension h => Node.tokens h

def withBlock (block : MemberBlock) : GroupHead → Decl
  | enum h => .enum ⟨h, block⟩
  | nominal h => .nominal ⟨h, block⟩
  | extension h => .extension ⟨h, block⟩

end GroupHead

/-- What an item starts with: a whole declaration without members, or the head of a group. -/
inductive Opening where
  | leaf (decl : Decl)
  | group (head : GroupHead)

def Opening.tokens : Opening → List Token
  | leaf d => d.tokens
  | group h => h.tokens

/-- How a declaration goes on after attributes and modifiers. -/
inductive Start where
  | enum
  | nominal
  | extension
  | enumCase
  | binding
  | other
deriving DecidableEq, Repr

/-- `actor` is no reserved word: a name has to follow it. -/
def startOf (t : Token) (next : Option Token) : Start :=
  if t.text = "actor" ∧ next.any (·.kind == .identifier) then .nominal
  else if t.kind ≠ .keyword then .other
  else if t.text = "enum" then .enum
  else if t.text = "struct" ∨ t.text = "class" ∨ t.text = "protocol" then .nominal
  else if t.text = "extension" then .extension
  else if t.text = "case" then .enumCase
  else if t.text = "var" ∨ t.text = "let" then .binding
  else .other

/-- A nominal type after its keyword, up to its member block. -/
def nominalHead (expected : String) (preamble : Preamble) (keyword : Token) (ts : List Token) :
    Reading (NominalHead × List Token) := do
  let (name, ts) ← expect .identifier expected ts
  let (generics, ts) ← generics ts
  let (inheritance, ts) ← inheritance ts
  return (⟨preamble, keyword, name, generics, inheritance, (whereClause ts).1⟩,
    (whereClause ts).2)

theorem tokens_of_nominalHead {expected : String} {p : Preamble} {keyword : Token}
    {ts rest : List Token} {head : NominalHead}
    (h : nominalHead expected p keyword ts = .ok (head, rest)) :
    ∃ run, Node.tokens head = Node.tokens p ++ keyword :: run ∧ run ++ rest = ts := by
  obtain ⟨⟨name, ts₁⟩, hn, h⟩ := bind_eq_ok.1 h
  obtain ⟨⟨gen, ts₂⟩, hg, h⟩ := bind_eq_ok.1 h
  obtain ⟨⟨inh, ts₃⟩, hi, h⟩ := bind_eq_ok.1 h
  obtain ⟨rfl, rfl⟩ := ok_pair_inj.1 h
  refine ⟨_, rfl, ?_⟩
  rw [← reads_expect _ _ _ _ _ hn, ← reads_generics _ _ _ hg, ← reads_inheritance _ _ _ hi]
  simpa [Node.tokens] using whereClause_append ts₃

/-- An extension after its keyword, up to its member block. -/
def extensionHead (preamble : Preamble) (keyword : Token) (ts : List Token) :
    Reading (ExtensionHead × List Token) := do
  let (extended, ts) ← type ts
  let (inheritance, ts) ← inheritance ts
  return (⟨preamble, keyword, extended, inheritance, (whereClause ts).1⟩, (whereClause ts).2)

theorem tokens_of_extensionHead {p : Preamble} {keyword : Token} {ts rest : List Token}
    {head : ExtensionHead} (h : extensionHead p keyword ts = .ok (head, rest)) :
    ∃ run, Node.tokens head = Node.tokens p ++ keyword :: run ∧ run ++ rest = ts := by
  obtain ⟨⟨ty, ts₁⟩, ht, h⟩ := bind_eq_ok.1 h
  obtain ⟨⟨inh, ts₂⟩, hi, h⟩ := bind_eq_ok.1 h
  obtain ⟨rfl, rfl⟩ := ok_pair_inj.1 h
  refine ⟨_, rfl, ?_⟩
  rw [← reads_type _ _ _ ht, ← reads_inheritance _ _ _ hi]
  simpa [Node.tokens] using whereClause_append ts₂

/-- A raw declaration as an opening. -/
def rawOpening (p : Preamble) (ts : List Token) : Reading (Opening × List Token) := do
  let (d, rest) ← rawDecl p ts
  return (.leaf (.raw d), rest)

/-- The opening after attributes and modifiers. -/
def openingAfter (p : Preamble) : List Token → Reading (Opening × List Token)
  | [] => rawOpening p []
  | t :: ts =>
    match startOf t ts.head? with
    | .enum => do
      let (head, rest) ← nominalHead "an enum name" p t ts
      return (.group (.enum head), rest)
    | .nominal => do
      let (head, rest) ← nominalHead "a type name" p t ts
      return (.group (.nominal head), rest)
    | .extension => do
      let (head, rest) ← extensionHead p t ts
      return (.group (.extension head), rest)
    | .enumCase =>
      match caseDecl p t ts with
      | .ok (d, rest) => .ok (.leaf (.enumCase d), rest)
      | .error _ => rawOpening p (t :: ts)
    | .binding =>
      match bindingDecl p t ts with
      | .ok (d, rest) => .ok (.leaf (.binding d), rest)
      | .error _ => rawOpening p (t :: ts)
    | .other => rawOpening p (t :: ts)

/-- The opening of the next item. -/
def opening (ts : List Token) : Reading (Opening × List Token) := do
  let (p, ts) ← preamble ts
  openingAfter p ts

theorem tokens_of_rawOpening {p : Preamble} {ts rest : List Token} {o : Opening}
    (h : rawOpening p ts = .ok (o, rest)) :
    ∃ run, o.tokens = Node.tokens p ++ run ∧ run ≠ [] ∧ run ++ rest = ts := by
  obtain ⟨⟨d, ts₁⟩, hd, h⟩ := bind_eq_ok.1 h
  obtain ⟨rfl, rfl⟩ := ok_pair_inj.1 h
  exact tokens_of_rawDecl hd

/-- A run that starts with a keyword is a nonempty run. -/
theorem exists_run_of_keyword {before all ts rest : List Token} {keyword : Token}
    (h : ∃ run, all = before ++ keyword :: run ∧ run ++ rest = ts) :
    ∃ run, all = before ++ run ∧ run ≠ [] ∧ run ++ rest = keyword :: ts := by
  obtain ⟨run, hall, hrest⟩ := h
  exact ⟨keyword :: run, hall, by simp, by simp [hrest]⟩

theorem tokens_of_openingAfter {p : Preamble} {ts rest : List Token} {o : Opening}
    (h : openingAfter p ts = .ok (o, rest)) :
    ∃ run, o.tokens = Node.tokens p ++ run ∧ run ≠ [] ∧ run ++ rest = ts := by
  unfold openingAfter at h
  split at h
  · exact tokens_of_rawOpening h
  split at h
  · obtain ⟨⟨head, ts₁⟩, hh, h⟩ := bind_eq_ok.1 h
    obtain ⟨rfl, rfl⟩ := ok_pair_inj.1 h
    exact exists_run_of_keyword (tokens_of_nominalHead hh)
  · obtain ⟨⟨head, ts₁⟩, hh, h⟩ := bind_eq_ok.1 h
    obtain ⟨rfl, rfl⟩ := ok_pair_inj.1 h
    exact exists_run_of_keyword (tokens_of_nominalHead hh)
  · obtain ⟨⟨head, ts₁⟩, hh, h⟩ := bind_eq_ok.1 h
    obtain ⟨rfl, rfl⟩ := ok_pair_inj.1 h
    exact exists_run_of_keyword (tokens_of_extensionHead hh)
  · split at h
    next hc =>
      obtain ⟨rfl, rfl⟩ := ok_pair_inj.1 h
      exact exists_run_of_keyword (tokens_of_caseDecl hc)
    next => exact tokens_of_rawOpening h
  · split at h
    next hb =>
      obtain ⟨rfl, rfl⟩ := ok_pair_inj.1 h
      exact exists_run_of_keyword (tokens_of_bindingDecl hb)
    next => exact tokens_of_rawOpening h
  · exact tokens_of_rawOpening h

theorem append_of_opening {ts rest : List Token} {o : Opening}
    (h : opening ts = .ok (o, rest)) : o.tokens ++ rest = ts ∧ rest.length < ts.length := by
  obtain ⟨⟨p, ts₁⟩, hp, h⟩ := bind_eq_ok.1 h
  obtain ⟨run, ho, hne, rfl⟩ := tokens_of_openingAfter h
  have happ := reads_preamble _ _ _ hp
  refine ⟨by rw [← happ, ho]; simp, ?_⟩
  have := congrArg List.length happ
  have := List.length_pos_iff.2 hne
  simp at *
  omega

/-! ### Member lists -/

/-- A declaration read to its end, with the semicolon after it. -/
def withSemicolon (d : Decl) (ts : List Token) : Member × List Token :=
  (⟨d, (takeKind .semicolon ts).1⟩, (takeKind .semicolon ts).2)

theorem withSemicolon_append (d : Decl) (ts : List Token) :
    (withSemicolon d ts).1.tokens ++ (withSemicolon d ts).2 = d.tokens ++ ts := by
  simp [withSemicolon, Member.tokens, takeKind_append]

theorem length_withSemicolon_le (d : Decl) (ts : List Token) :
    (withSemicolon d ts).2.length ≤ ts.length := by
  have := congrArg List.length (takeKind_append .semicolon ts)
  simp [withSemicolon] at this ⊢
  omega

/-- Items at the head of `ts`, and the tokens after them. -/
structure ItemList (ts : List Token) where
  members : List Member
  rest : List Token
  length_le : rest.length ≤ ts.length

/-- The items up to the closing brace of the block they stand in, or up to the end. -/
def items (ts : List Token) : Reading (ItemList ts) :=
  if ts.head?.all (·.kind == .rightBrace) then .ok ⟨[], ts, Nat.le_refl _⟩
  else
    match _opening : opening ts with
    | .error e => .error e
    | .ok (.leaf d, rest) =>
      match items (withSemicolon d rest).2 with
      | .error e => .error e
      | .ok ⟨ms, last, hle⟩ =>
        .ok ⟨(withSemicolon d rest).1 :: ms, last, by
          have := (append_of_opening _opening).2
          have := length_withSemicolon_le d rest
          omega⟩
    | .ok (.group head, rest) =>
      match _left : expect .leftBrace "`\x7b`" rest with
      | .error e => .error e
      | .ok (left, inner) =>
        match items inner with
        | .error e => .error e
        | .ok ⟨members, after, hle⟩ =>
          match _right : expect .rightBrace "`\x7d`" after with
          | .error e => .error e
          | .ok (right, outer) =>
            let d := head.withBlock ⟨left, members, right⟩
            match items (withSemicolon d outer).2 with
            | .error e => .error e
            | .ok ⟨ms, last, hle'⟩ =>
              .ok ⟨(withSemicolon d outer).1 :: ms, last, by
                have := (append_of_opening _opening).2
                have := length_lt_of_expect _left
                have := length_lt_of_expect _right
                have := length_withSemicolon_le d outer
                omega⟩
termination_by ts.length
decreasing_by
  · have := (append_of_opening _opening).2
    have := length_withSemicolon_le d rest
    omega
  · have := (append_of_opening _opening).2
    have := length_lt_of_expect _left
    omega
  · have := (append_of_opening _opening).2
    have := length_lt_of_expect _left
    have := length_lt_of_expect _right
    have := length_withSemicolon_le (head.withBlock ⟨left, members, right⟩) outer
    omega

end EnumForge.Grammar
