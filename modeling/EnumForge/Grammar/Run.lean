import EnumForge.Token

/-!
# Token runs

How far a balanced group, a generic clause, a type, an expression or a raw declaration reaches.
Each function walks the tokens once with the depth of nesting so far and splits them into the run
and the rest; `none` says that the tokens ended inside a group.
-/

namespace EnumForge.Grammar

/-- `t` at the head of a run. -/
def consRun (t : Token) (run : List Token × List Token) : List Token × List Token :=
  (t :: run.1, run.2)

/-- The tokens up to the one that closes the last of `depth` groups. -/
def balancedRun (depth : Nat) : List Token → Option (List Token × List Token)
  | [] => none
  | t :: ts =>
    if t.kind.opens then (balancedRun (depth + 1) ts).map (consRun t)
    else if t.kind.closes then
      if depth ≤ 1 then some ([t], ts) else (balancedRun (depth - 1) ts).map (consRun t)
    else (balancedRun depth ts).map (consRun t)

/-- How many angle brackets an operator opens, less those it closes. -/
def angleDelta (t : Token) : Int :=
  if t.kind = .operator then (t.text.toList.count '<' : Int) - t.text.toList.count '>' else 0

/-- The tokens of a generic clause: up to where no angle bracket is open any more. -/
def angleRun (depth : Int) : List Token → Option (List Token × List Token)
  | [] => none
  | t :: ts =>
    if depth + angleDelta t ≤ 0 then some ([t], ts)
    else (angleRun (depth + angleDelta t) ts).map (consRun t)

/-- Whether a type ends before `t`, wherever it stands on its line. -/
def endsType (t : Token) : Bool :=
  match t.kind with
  | .comma | .leftBrace | .rightBrace | .rightParen | .rightSquare | .colon | .equal
  | .semicolon => true
  | _ => t.isKeyword "where"

/-- The change of nesting in a type, where braces do not nest and angle brackets do. -/
def typeDelta (t : Token) : Int :=
  match t.kind with
  | .leftParen | .leftSquare => 1
  | .rightParen | .rightSquare => -1
  | _ => angleDelta t

/-- The tokens of a type; `started` says that one was taken already. -/
def typeRun (depth : Int) (started : Bool) : List Token → Option (List Token × List Token)
  | [] => if depth = 0 then some ([], []) else none
  | t :: ts =>
    if depth = 0 ∧ (endsType t || started && t.startsLine) then some ([], t :: ts)
    else (typeRun (depth + typeDelta t) true ts).map (consRun t)

/-- Whether an expression ends before `t`; `last` is the token before it. -/
def endsExpr (last : Option Token) (t : Token) : Bool :=
  match t.kind with
  | .comma | .semicolon | .rightBrace | .rightParen | .rightSquare => true
  | .period | .operator => false
  | .leftBrace => last.any fun l ↦ t.startsLine || !l.trailing.isEmpty
  | _ => last.isSome && t.startsLine

/-- The tokens of an expression. -/
def exprRun (depth : Nat) (last : Option Token) :
    List Token → Option (List Token × List Token)
  | [] => if depth = 0 then some ([], []) else none
  | t :: ts =>
    if depth = 0 ∧ endsExpr last t then some ([], t :: ts)
    else
      let depth := if t.kind.opens then depth + 1 else if t.kind.closes then depth - 1 else depth
      (exprRun depth (some t) ts).map (consRun t)

/-- Whether a raw declaration that has begun ends before `t`: at a semicolon or closing brace, and
at a new line unless it starts with a brace, point, equals sign, arrow or operator. -/
def endsRaw (t : Token) : Bool :=
  match t.kind with
  | .semicolon | .rightBrace => true
  | .leftBrace | .period | .equal | .arrow | .operator => false
  | _ => t.startsLine

/-- Why a raw declaration has no end. -/
inductive RawFault where
  /-- The tokens ended inside a group. -/
  | unclosed
  /-- `t` closes a group that was not opened. -/
  | unopened (t : Token)

/-- The tokens of a raw declaration after its first one. -/
def rawRun (depth : Nat) : List Token → Except RawFault (List Token × List Token)
  | [] => if depth = 0 then .ok ([], []) else .error .unclosed
  | t :: ts =>
    if depth = 0 ∧ (t.kind = .rightParen ∨ t.kind = .rightSquare) then .error (.unopened t)
    else if depth = 0 ∧ endsRaw t then .ok ([], t :: ts)
    else
      let depth := if t.kind.opens then depth + 1 else if t.kind.closes then depth - 1 else depth
      (rawRun depth ts).map (consRun t)

/-! ### Groups that were not opened -/

theorem endsExpr_of_closes {t : Token} {last : Option Token} (h : t.kind.closes = true) :
    endsExpr last t = true := by
  cases hkind : t.kind <;> simp_all [endsExpr, TokenKind.closes]

/-- A raw declaration goes over a closing delimiter inside a group only. -/
theorem depth_pos_of_closes {t : Token} {depth : Nat}
    (hclose : ¬(depth = 0 ∧ (t.kind = .rightParen ∨ t.kind = .rightSquare)))
    (hend : ¬(depth = 0 ∧ endsRaw t = true)) (h : t.kind.closes = true) : 0 < depth := by
  refine Nat.pos_of_ne_zero fun hdepth ↦ ?_
  cases hkind : t.kind <;> simp_all [endsRaw, TokenKind.closes]

/-! ### Nothing is lost -/

theorem append_of_map_consRun {t : Token} {ts run rest : List Token}
    {o : Option (List Token × List Token)}
    (h : o.map (consRun t) = some (run, rest))
    (ih : ∀ run rest, o = some (run, rest) → run ++ rest = ts) : run ++ rest = t :: ts := by
  obtain ⟨⟨r, s⟩, ho, he⟩ := Option.map_eq_some_iff.1 h
  simp only [consRun, Prod.mk.injEq] at he
  obtain ⟨rfl, rfl⟩ := he
  simp [ih r s ho]

theorem append_of_balancedRun {depth : Nat} {ts run rest : List Token}
    (h : balancedRun depth ts = some (run, rest)) : run ++ rest = ts := by
  induction ts generalizing depth run rest with
  | nil => simp [balancedRun] at h
  | cons t ts ih =>
    unfold balancedRun at h
    split at h
    · exact append_of_map_consRun h fun _ _ ↦ ih
    split at h
    · split at h
      · simp only [Option.some.injEq, Prod.mk.injEq] at h
        obtain ⟨rfl, rfl⟩ := h
        rfl
      · exact append_of_map_consRun h fun _ _ ↦ ih
    · exact append_of_map_consRun h fun _ _ ↦ ih

theorem append_of_angleRun {depth : Int} {ts run rest : List Token}
    (h : angleRun depth ts = some (run, rest)) : run ++ rest = ts := by
  induction ts generalizing depth run rest with
  | nil => simp [angleRun] at h
  | cons t ts ih =>
    unfold angleRun at h
    split at h
    · simp only [Option.some.injEq, Prod.mk.injEq] at h
      obtain ⟨rfl, rfl⟩ := h
      rfl
    · exact append_of_map_consRun h fun _ _ ↦ ih

theorem append_of_typeRun {depth : Int} {started : Bool} {ts run rest : List Token}
    (h : typeRun depth started ts = some (run, rest)) : run ++ rest = ts := by
  induction ts generalizing depth started run rest with
  | nil =>
    unfold typeRun at h
    split at h
    · simp only [Option.some.injEq, Prod.mk.injEq] at h
      obtain ⟨rfl, rfl⟩ := h
      rfl
    · simp at h
  | cons t ts ih =>
    unfold typeRun at h
    split at h
    · simp only [Option.some.injEq, Prod.mk.injEq] at h
      obtain ⟨rfl, rfl⟩ := h
      rfl
    · exact append_of_map_consRun h fun _ _ ↦ ih

theorem append_of_exprRun {depth : Nat} {last : Option Token} {ts run rest : List Token}
    (h : exprRun depth last ts = some (run, rest)) : run ++ rest = ts := by
  induction ts generalizing depth last run rest with
  | nil =>
    unfold exprRun at h
    split at h
    · simp only [Option.some.injEq, Prod.mk.injEq] at h
      obtain ⟨rfl, rfl⟩ := h
      rfl
    · simp at h
  | cons t ts ih =>
    unfold exprRun at h
    split at h
    · simp only [Option.some.injEq, Prod.mk.injEq] at h
      obtain ⟨rfl, rfl⟩ := h
      rfl
    · exact append_of_map_consRun h fun _ _ ↦ ih

theorem append_of_rawRun {depth : Nat} {ts run rest : List Token}
    (h : rawRun depth ts = .ok (run, rest)) : run ++ rest = ts := by
  induction ts generalizing depth run rest with
  | nil =>
    unfold rawRun at h
    split at h
    · simp only [Except.ok.injEq, Prod.mk.injEq] at h
      obtain ⟨rfl, rfl⟩ := h
      rfl
    · simp at h
  | cons t ts ih =>
    unfold rawRun at h
    split at h
    · simp at h
    split at h
    · simp only [Except.ok.injEq, Prod.mk.injEq] at h
      obtain ⟨rfl, rfl⟩ := h
      rfl
    · dsimp only at h
      generalize (if t.kind.opens then depth + 1
        else if t.kind.closes then depth - 1 else depth) = d at h
      cases hr : rawRun d ts with
      | error e => simp [hr, Except.map] at h
      | ok r =>
        obtain ⟨r, s⟩ := r
        simp only [hr, Except.map, consRun, Except.ok.injEq, Prod.mk.injEq] at h
        obtain ⟨rfl, rfl⟩ := h
        simp [ih hr]

end EnumForge.Grammar
