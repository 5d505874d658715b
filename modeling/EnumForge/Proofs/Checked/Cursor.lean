import EnumForge.Grammar.Clause
import EnumForge.Proofs.Checked.Shape
import EnumForge.Token.Lexer

/-!
# A cursor over tokens

The tokens of a source with an index into them.  The cursor stays on the end of the file once it
is there, so a loop that does not look for the end of the file would not be done; and that token
may be looked at as often as one likes, but it is no part of an item.
-/

namespace EnumForge.Checked

open Grammar (Reading Reads takeKind unbalanced angleDelta typeDelta endsType endsExpr endsRaw)

section Cursor

variable (tokens : List Token)

/-- The token that stands `n` places behind the cursor, or the last one. -/
def peekNth (n pos : Nat) : Guarded Token := do
  tokenAt (min (pos + n) (← sub tokens.length 1)) tokens

def current (pos : Nat) : Guarded Token := peekNth tokens 0 pos

/-- The current token, and the cursor behind it unless it is the last one. -/
def advance (pos : Nat) : Guarded (Token × Nat) := do
  let t ← current tokens pos
  return (t, if pos < (← sub tokens.length 1) then pos + 1 else pos)

/-- Like `advance`, for a token that goes into an item. -/
def take (pos : Nat) : Guarded (Token × Nat) := do
  let (t, pos) ← advance tokens pos
  if t.kind = .endOfFile then fault .endTaken else return (t, pos)

end Cursor

/-- Something else was expected where `t` stands. -/
def unexpected (expected : String) (t : Token) : ParseError Nat :=
  if t.kind = .endOfFile then .unexpectedEnd expected
  else
    match t.span with
    | some span => .unexpectedToken expected t.text span.start
    | none => .unexpectedEnd expected

/-- A counter of open groups behind `t`. -/
def nest (depth : Nat) (t : Token) : Guarded Nat :=
  if t.kind.opens then .ok (depth + 1) else if t.kind.closes then sub depth 1 else .ok depth

theorem nest_eq {depth : Nat} {t : Token} (h : t.kind.closes → 0 < depth) :
    nest depth t =
      .ok (if t.kind.opens then depth + 1 else if t.kind.closes then depth - 1 else depth) := by
  rw [nest]
  split
  · rfl
  split
  next hcloses => exact sub_of_le (h hcloses)
  next => rfl

example : nest 0 Token.rightBrace = fault .underflow := rfl

section Loops

variable (tokens : List Token)

def takeIf (kind : TokenKind) (pos : Nat) : Guarded (Option Token × Nat) := do
  if (← current tokens pos).kind = kind then
    let (t, pos) ← take tokens pos
    return (some t, pos)
  else return (none, pos)

def expect (kind : TokenKind) (expected : String) (pos : Nat) : Guarded (Token × Nat) := do
  let t ← current tokens pos
  if t.kind = kind then take tokens pos else refuse (unexpected expected t)

/-- The rest of a group that `opener` starts; `run` is what there is of it. -/
def balancedFrom (opener : Token) : Nat → Nat → List Token → Nat → Guarded (List Token × Nat)
  | 0, _, _, _ => fault .endless
  | fuel + 1, depth, run, pos => do
    if depth = 0 then return (run, pos)
    else
      let (t, pos) ← advance tokens pos
      if t.kind = .endOfFile then refuse (unbalanced opener)
      else balancedFrom opener fuel (← nest depth t) (run ++ [t]) pos

def balanced (pos : Nat) : Guarded (List Token × Nat) := do
  let (opener, pos) ← take tokens pos
  balancedFrom tokens opener tokens.length 1 [opener] pos

/-- The rest of a generic clause. -/
def angleFrom : Nat → Int → List Token → Nat → Guarded (List Token × Nat)
  | 0, _, _, _ => fault .endless
  | fuel + 1, depth, run, pos => do
    if (← current tokens pos).kind = .endOfFile then refuse (unbalanced (← tokenAt 0 run))
    else
      let (t, pos) ← take tokens pos
      let depth := depth + angleDelta t
      if depth ≤ 0 then return (run ++ [t], pos) else angleFrom fuel depth (run ++ [t]) pos

/-- The rest of a run of tokens that may end outside all groups, where the depth is `outside`.
`ends` says so about the token before the current one, if that is a token of the run, and the
current one. -/
def runFrom {δ : Type} [DecidableEq δ] (ends : Option Token → Token → Guarded Bool)
    (nest : δ → Token → Guarded δ) (outside : δ) :
    Nat → δ → List Token → Nat → Guarded (List Token × Nat)
  | 0, _, _, _ => fault .endless
  | fuel + 1, depth, run, pos => do
    let t ← current tokens pos
    if ← both (depth = outside) (ends run.getLast? t) then return (run, pos)
    else if depth ≠ outside ∧ t.kind = .endOfFile then refuse (unbalanced (← tokenAt 0 run))
    else
      let depth ← nest depth t
      let (t, pos) ← take tokens pos
      runFrom ends nest outside fuel depth (run ++ [t]) pos

def typeEnds (last : Option Token) (t : Token) : Guarded Bool :=
  .ok (t.kind == .endOfFile || endsType t || last.isSome && t.startsLine)

def exprEnds (last : Option Token) (t : Token) : Guarded Bool :=
  .ok (t.kind == .endOfFile || endsExpr last t)

def rawEnds (last : Option Token) (t : Token) : Guarded Bool :=
  if t.kind = .rightParen ∨ t.kind = .rightSquare then refuse (unbalanced t)
  else if last.isSome then .ok (t.kind == .endOfFile || endsRaw t)
  else if t.kind = .rightBrace ∨ t.kind = .endOfFile then refuse (unexpected "a declaration" t)
  else .ok false

def typeRun (pos : Nat) : Guarded (List Token × Nat) :=
  runFrom tokens typeEnds (fun depth t ↦ .ok (depth + typeDelta t)) 0 tokens.length 0 [] pos

def exprRun (pos : Nat) : Guarded (List Token × Nat) :=
  runFrom tokens exprEnds nest 0 tokens.length 0 [] pos

def rawRun (pos : Nat) : Guarded (List Token × Nat) :=
  runFrom tokens rawEnds nest 0 tokens.length 0 [] pos

/-- The rest of a `where` clause. -/
def whereFrom : Nat → List Token → Nat → Guarded (List Token × Nat)
  | 0, _, _ => fault .endless
  | fuel + 1, run, pos => do
    let t ← current tokens pos
    if t.kind = .leftBrace ∨ t.kind = .endOfFile then return (run, pos)
    else
      let (t, pos) ← take tokens pos
      whereFrom fuel (run ++ [t]) pos

end Loops

/-! ### Indices and lists -/

/-- The end of the file is the last token and no other; the other tokens have a place, and a
closing brace is not spelled like a keyword. -/
structure Ended (s : TokenStream) : Prop where
  kind_endOfFile : s.endOfFile.kind = .endOfFile
  text_endOfFile : s.endOfFile.text = ""
  kind_ne : ∀ t ∈ s.tokens, t.kind ≠ .endOfFile
  placed : ∀ t ∈ s.tokens, t.span.isSome
  text_rightBrace : ∀ t ∈ s.tokens, t.kind = .rightBrace → t.text ≠ "actor"

theorem Ended.kind_head {s : TokenStream} (hs : Ended s) {t : Token} {ts : List Token}
    (h : t :: ts <:+ s.tokens) : t.kind ≠ .endOfFile :=
  hs.kind_ne t (h.subset List.mem_cons_self)

/-- The index of the token that `rest` starts with. -/
def index (s : TokenStream) (rest : List Token) : Nat := s.tokens.length - rest.length

/-- A result about lists as one about indices. -/
def atIndex {α : Type} (s : TokenStream) (r : Reading (α × List Token)) : Guarded (α × Nat) :=
  ofReading (r.map fun (a, rest) ↦ (a, index s rest))

variable {s : TokenStream} {t : Token} {ts rest : List Token}

@[simp] theorem atIndex_ok {α : Type} (a : α) (rest : List Token) :
    atIndex s (.ok (a, rest)) = .ok (a, index s rest) := rfl

@[simp] theorem atIndex_error {α : Type} (e : ParseError Nat) :
    atIndex s (.error e : Reading (α × List Token)) = refuse e := rfl

theorem atIndex_bind {α β : Type} {p : Reading (α × List Token)}
    {f : α × List Token → Reading (β × List Token)} {g : α × Nat → Guarded (β × Nat)}
    (h : ∀ a rest, p = .ok (a, rest) → g (a, index s rest) = atIndex s (f (a, rest))) :
    (atIndex s p >>= g) = atIndex s (p >>= f) := by
  cases p with
  | error e => rfl
  | ok r => exact h r.1 r.2 rfl

theorem suffix_of_reads {α : Type} [Node α] {p : Reading (α × List Token)} {a : α}
    {all : List Token} (hreads : Reads p ts) (hp : p = .ok (a, rest)) (h : ts <:+ all) :
    rest <:+ all :=
  .trans ⟨_, hreads a rest hp⟩ h

/-- What follows a reader is read at a place among the tokens. -/
theorem atIndex_bind_of_reads {α β : Type} [Node α] {p : Reading (α × List Token)}
    {f : α × List Token → Reading (β × List Token)} {g : α × Nat → Guarded (β × Nat)}
    (hreads : Reads p ts) (hts : ts <:+ s.tokens)
    (h : ∀ a rest, rest <:+ s.tokens → g (a, index s rest) = atIndex s (f (a, rest))) :
    (atIndex s p >>= g) = atIndex s (p >>= f) :=
  atIndex_bind fun a rest hp ↦ h a rest (suffix_of_reads hreads hp hts)

theorem peekNth_index (h : rest <:+ s.tokens) (n : Nat) :
    peekNth s.toList n (index s rest) = .ok (rest[n]?.getD s.endOfFile) := by
  obtain ⟨before, hbefore⟩ := h
  have hindex : index s rest = before.length := by simp [index, ← hbefore]
  have hlast : sub s.toList.length 1 = .ok (before.length + rest.length) := by
    rw [TokenStream.toList, ← hbefore]
    exact (sub_of_le (by simp; omega)).trans (by simp)
  rw [peekNth, hlast, ok_bind, hindex, Nat.add_min_add_left, TokenStream.toList, ← hbefore,
    List.append_assoc, tokenAt, List.getElem?_append_right (Nat.le_add_right _ _),
    Nat.add_sub_cancel_left]
  rcases Nat.lt_or_ge n rest.length with hn | hn
  · simp [Nat.min_eq_left (Nat.le_of_lt hn), List.getElem?_append_left hn, hn]
  · rw [Nat.min_eq_right hn]
    simp [hn]

theorem current_index (h : rest <:+ s.tokens) :
    current s.toList (index s rest) = .ok (rest.head?.getD s.endOfFile) := by
  rw [List.head?_eq_getElem?]
  exact peekNth_index h 0

theorem current_cons (h : t :: ts <:+ s.tokens) : current s.toList (index s (t :: ts)) = .ok t :=
  current_index h

theorem current_nil : current s.toList (index s []) = .ok s.endOfFile :=
  current_index (List.nil_suffix)

theorem advance_cons (h : t :: ts <:+ s.tokens) :
    advance s.toList (index s (t :: ts)) = .ok (t, index s ts) := by
  have hlt : ts.length < s.tokens.length := h.length_le
  have hlast : sub s.toList.length 1 = .ok s.tokens.length := by
    simp [TokenStream.toList, sub_of_le]
  rw [advance, current_cons h, ok_bind, hlast, ok_bind, pure_eq_ok, index, List.length_cons,
    if_pos (by omega), index]
  congr 2
  omega

theorem advance_nil : advance s.toList (index s []) = .ok (s.endOfFile, index s []) := by
  have hlast : sub s.toList.length 1 = .ok s.tokens.length := by
    simp [TokenStream.toList, sub_of_le]
  rw [advance, current_nil, ok_bind, hlast, ok_bind, pure_eq_ok, if_neg (by simp [index])]

theorem runFrom_nil {δ : Type} [DecidableEq δ] {ends : Option Token → Token → Guarded Bool}
    {nest : δ → Token → Guarded δ} {outside : δ} {fuel : Nat} (hfuel : 0 < fuel)
    (hends : ends none s.endOfFile = .ok true) :
    runFrom s.toList ends nest outside fuel outside [] (index s []) = .ok ([], index s []) := by
  obtain ⟨fuel, rfl⟩ := exists_fuel hfuel
  rw [runFrom, current_nil, ok_bind, List.getLast?_nil, hends, both_ok, ok_bind]
  exact if_pos (by simp)

theorem length_lt_toList (h : rest <:+ s.tokens) : rest.length < s.toList.length := by
  have := h.length_le
  simp [TokenStream.toList]
  omega

section Ended

variable (hs : Ended s)

include hs

theorem take_cons (h : t :: ts <:+ s.tokens) :
    take s.toList (index s (t :: ts)) = .ok (t, index s ts) := by
  have hkind := hs.kind_head h
  rw [take, advance_cons h]
  exact if_neg hkind

theorem unexpected_cons (h : t :: ts <:+ s.tokens) (expected : String) :
    unexpected expected t = Grammar.unexpected expected (t :: ts) := by
  have hkind := hs.kind_head h
  obtain ⟨span, hspan⟩ := Option.isSome_iff_exists.1 (hs.placed t (h.subset List.mem_cons_self))
  simp [unexpected, hkind, hspan, Grammar.unexpected, Token.offset]

theorem unexpected_endOfFile (expected : String) :
    unexpected expected s.endOfFile = Grammar.unexpected expected [] :=
  if_pos hs.kind_endOfFile

theorem takeIf_index (h : rest <:+ s.tokens) {kind : TokenKind} (hkind : kind ≠ .endOfFile) :
    takeIf s.toList kind (index s rest) = atIndex s (.ok (takeKind kind rest)) := by
  cases rest with
  | nil => simp [takeIf, current_nil, hs.kind_endOfFile, hkind.symm, takeKind, atIndex_ok]
  | cons t ts =>
    rw [takeIf, current_cons h, ok_bind, takeKind]
    split
    · rw [take_cons hs h]
      rfl
    · rfl

theorem expect_index (h : rest <:+ s.tokens) {kind : TokenKind} (hkind : kind ≠ .endOfFile)
    (expected : String) :
    expect s.toList kind expected (index s rest) =
      atIndex s (Grammar.expect kind expected rest) := by
  cases rest with
  | nil =>
    rw [expect, current_nil, ok_bind, hs.kind_endOfFile, if_neg hkind.symm,
      unexpected_endOfFile hs]
    rfl
  | cons t ts =>
    rw [expect, current_cons h, ok_bind, Grammar.expect]
    split
    · exact take_cons hs h
    · rw [unexpected_cons hs h]
      rfl

/-! ### Loops -/

omit hs in
/-- A run that goes on after `run`, and the index of what follows it; `e` is the refusal if the
tokens end before. -/
def afterRun (s : TokenStream) (run : List Token) (e : ParseError Nat) :
    Option (List Token × List Token) → Guarded (List Token × Nat)
  | some (more, rest) => .ok (run ++ more, index s rest)
  | none => refuse e

omit hs in
theorem afterRun_consRun (run : List Token) (e : ParseError Nat)
    (o : Option (List Token × List Token)) :
    afterRun s run e (o.map (Grammar.consRun t)) = afterRun s (run ++ [t]) e o := by
  cases o <;> simp [afterRun, Grammar.consRun]

theorem balancedFrom_index {opener : Token} {fuel depth : Nat} {run : List Token}
    (h : rest <:+ s.tokens) (hfuel : rest.length + 1 < fuel) :
    balancedFrom s.toList opener fuel (depth + 1) run (index s rest) =
      afterRun s run (unbalanced opener) (Grammar.balancedRun (depth + 1) rest) := by
  induction rest generalizing fuel depth run with
  | nil =>
    obtain ⟨fuel, rfl⟩ := exists_fuel hfuel
    rw [balancedFrom, if_neg (Nat.succ_ne_zero _), advance_nil]
    exact if_pos hs.kind_endOfFile
  | cons t ts ih =>
    obtain ⟨fuel, rfl⟩ := exists_fuel hfuel
    have htail := suffix_of_cons h
    rw [balancedFrom, if_neg (Nat.succ_ne_zero _), advance_cons h, ok_bind]
    dsimp only
    rw [if_neg (hs.kind_head h), nest, Grammar.balancedRun]
    split
    · rw [ok_bind, ih htail (by simpa using hfuel), afterRun_consRun]
    split
    · rw [sub_of_le (Nat.le_add_left _ _), ok_bind, Nat.add_sub_cancel]
      cases depth with
      | zero =>
        obtain ⟨fuel, rfl⟩ := exists_fuel (Nat.lt_of_succ_lt_succ hfuel)
        rfl
      | succ depth =>
        rw [if_neg (by omega), ih htail (by simpa using hfuel),
          afterRun_consRun]
    · rw [ok_bind, ih htail (by simpa using hfuel), afterRun_consRun]

theorem balanced_index (h : t :: ts <:+ s.tokens) :
    balanced s.toList (index s (t :: ts)) =
      afterRun s [t] (unbalanced t) (Grammar.balancedRun 1 ts) := by
  have hlt := length_lt_toList h
  rw [balanced, take_cons hs h]
  exact balancedFrom_index hs (suffix_of_cons h) hlt

/-- A clause that has a token already knows where it started. -/
theorem angleFrom_index {first : Token} {fuel : Nat} {depth : Int} {run : List Token}
    (h : rest <:+ s.tokens) (hfuel : rest.length < fuel)
    (hfirst : (run ++ rest).head? = some first) :
    angleFrom s.toList fuel depth run (index s rest) =
      afterRun s run (unbalanced first) (Grammar.angleRun depth rest) := by
  induction rest generalizing fuel depth run with
  | nil =>
    obtain ⟨fuel, rfl⟩ := exists_fuel hfuel
    rw [List.append_nil] at hfirst
    rw [angleFrom, current_nil, ok_bind, if_pos hs.kind_endOfFile, tokenAt_of_head? hfirst]
    rfl
  | cons t ts ih =>
    obtain ⟨fuel, rfl⟩ := exists_fuel hfuel
    have htail := suffix_of_cons h
    rw [angleFrom, current_cons h, ok_bind, if_neg (hs.kind_head h),
      take_cons hs h, ok_bind, Grammar.angleRun]
    dsimp only
    split
    · rfl
    · rw [ih htail (by simpa using hfuel) (by simpa using hfirst), afterRun_consRun]

/-- A loop takes the run that `r` takes, if both stop and count groups alike. -/
theorem runFrom_index {δ : Type} [DecidableEq δ] {ends : Option Token → Token → Guarded Bool}
    {nest : δ → Token → Guarded δ} {outside : δ} {stops : Option Token → Token → Bool}
    {next : δ → Token → δ}
    {r : δ → Option Token → List Token → Option (List Token × List Token)}
    (hends : ∀ last t, ends last t = .ok (t.kind == .endOfFile || stops last t))
    (hnest : ∀ depth last t, ¬(depth = outside ∧ stops last t) → nest depth t = .ok (next depth t))
    (hnil : ∀ depth last, r depth last [] = if depth = outside then some ([], []) else none)
    (hcons : ∀ depth last t ts, r depth last (t :: ts) =
      if depth = outside ∧ stops last t then some ([], t :: ts)
      else (r (next depth t) (some t) ts).map (Grammar.consRun t))
    {first : Token} {fuel : Nat} {depth : δ} {run : List Token} (h : rest <:+ s.tokens)
    (hfuel : rest.length < fuel) (hfirst : (run ++ rest).head? = some first) :
    runFrom s.toList ends nest outside fuel depth run (index s rest) =
      afterRun s run (unbalanced first) (r depth run.getLast? rest) := by
  induction rest generalizing fuel depth run with
  | nil =>
    obtain ⟨fuel, rfl⟩ := exists_fuel hfuel
    rw [List.append_nil] at hfirst
    rw [runFrom, current_nil, ok_bind, hends, both_ok, ok_bind, hnil, tokenAt_of_head? hfirst]
    by_cases hdepth : depth = outside <;> simp [hdepth, hs.kind_endOfFile, afterRun]
  | cons t ts ih =>
    obtain ⟨fuel, rfl⟩ := exists_fuel hfuel
    have hkind := hs.kind_head h
    rw [runFrom, current_cons h, ok_bind, hends, both_ok, ok_bind, beq_false_of_ne hkind,
      Bool.false_or, hcons]
    simp only [Bool.and_eq_true, decide_eq_true_eq]
    split
    · simp [afterRun]
    next hgo =>
      rw [if_neg fun hend ↦ hkind hend.2, hnest _ _ _ hgo, ok_bind, take_cons hs h, ok_bind]
      dsimp only
      rw [ih (suffix_of_cons h) (by simpa using hfuel) (by simpa using hfirst), afterRun_consRun]
      simp

theorem typeRun_index (h : t :: ts <:+ s.tokens) :
    typeRun s.toList (index s (t :: ts)) =
      afterRun s [] (unbalanced t) (Grammar.typeRun 0 false (t :: ts)) := by
  have hends (last : Option Token) (t : Token) : typeEnds last t =
      .ok (t.kind == .endOfFile || (endsType t || last.isSome && t.startsLine)) := by
    rw [typeEnds, Bool.or_assoc]
  exact runFrom_index hs (r := fun depth last ↦ Grammar.typeRun depth last.isSome) hends
    (fun _ _ _ _ ↦ rfl) (fun _ _ ↦ rfl) (fun _ _ _ _ ↦ rfl) h (length_lt_toList h) rfl

theorem exprRun_index (h : t :: ts <:+ s.tokens) :
    exprRun s.toList (index s (t :: ts)) =
      afterRun s [] (unbalanced t) (Grammar.exprRun 0 none (t :: ts)) := by
  refine runFrom_index hs (fun _ _ ↦ rfl) (fun depth last t hgo ↦ nest_eq fun hcloses ↦ ?_)
    (fun _ _ ↦ rfl) (fun _ _ _ _ ↦ rfl) h (length_lt_toList h) rfl
  exact Nat.pos_of_ne_zero fun hdepth ↦ hgo ⟨hdepth, Grammar.endsExpr_of_closes hcloses⟩

omit hs in
/-- What is left of a raw declaration that starts with the token `first`. -/
def afterRaw (s : TokenStream) (run : List Token) (first : Token) :
    Except Grammar.RawFault (List Token × List Token) → Guarded (List Token × Nat)
  | .ok (more, rest) => .ok (run ++ more, index s rest)
  | .error .unclosed => refuse (unbalanced first)
  | .error (.unopened t) => refuse (unbalanced t)

omit hs in
theorem afterRaw_consRun (run : List Token) (first : Token)
    (r : Except Grammar.RawFault (List Token × List Token)) :
    afterRaw s run first (r.map (Grammar.consRun t)) = afterRaw s (run ++ [t]) first r := by
  rcases r with (_ | _) | _ <;> simp [afterRaw, Grammar.consRun, Except.map]

theorem rawRun_from {first : Token} {fuel depth : Nat} {run : List Token}
    (h : rest <:+ s.tokens) (hfuel : rest.length < fuel) (hfirst : run.head? = some first) :
    runFrom s.toList rawEnds nest 0 fuel depth run (index s rest) =
      afterRaw s run first (Grammar.rawRun depth rest) := by
  have hlast {us : List Token} (hus : us.head? = some first) : us.getLast?.isSome := by
    obtain ⟨us, rfl⟩ := List.head?_eq_some_iff.1 hus
    simp
  induction rest generalizing fuel depth run with
  | nil =>
    obtain ⟨fuel, rfl⟩ := exists_fuel hfuel
    rw [runFrom, current_nil, ok_bind, rawEnds, if_pos (hlast hfirst), Grammar.rawRun,
      tokenAt_of_head? hfirst, hs.kind_endOfFile]
    by_cases hdepth : depth = 0 <;> simp [both, hdepth, afterRaw]
  | cons t ts ih =>
    obtain ⟨fuel, rfl⟩ := exists_fuel hfuel
    have htail := suffix_of_cons h
    have hkind := hs.kind_head h
    rw [runFrom, current_cons h, ok_bind, rawEnds, if_pos (hlast hfirst), beq_false_of_ne hkind,
      Bool.false_or, Grammar.rawRun]
    by_cases hclose : depth = 0 ∧ (t.kind = .rightParen ∨ t.kind = .rightSquare)
    · rw [if_pos hclose, if_pos hclose.2, both, if_pos (by simpa using hclose.1)]
      rfl
    by_cases hend : depth = 0 ∧ endsRaw t
    · have hopen : ¬ (t.kind = .rightParen ∨ t.kind = .rightSquare) := fun h ↦ hclose ⟨hend.1, h⟩
      rw [if_neg hclose, if_pos hend, if_neg hopen, both_ok, ok_bind, if_pos (by simpa using hend)]
      simp [afterRaw]
    · have hgo : both (decide (depth = 0)) (if t.kind = .rightParen ∨ t.kind = .rightSquare
          then refuse (unbalanced t) else .ok (endsRaw t)) = .ok false := by
        by_cases hdepth : depth = 0
        · simp_all [both]
        · simp [both, hdepth]
      rw [if_neg hclose, if_neg hend, hgo, ok_bind, if_neg Bool.false_ne_true,
        if_neg fun hend ↦ hkind hend.2, nest_eq (Grammar.depth_pos_of_closes hclose hend), ok_bind,
        take_cons hs h, ok_bind]
      dsimp only
      rw [ih htail (by simpa using hfuel) (by simp [hfirst]), afterRaw_consRun]

theorem whereFrom_index {fuel : Nat} {run : List Token} (h : rest <:+ s.tokens)
    (hfuel : rest.length < fuel) :
    whereFrom s.toList fuel run (index s rest) =
      .ok (run ++ rest.takeWhile (·.kind != .leftBrace),
        index s (rest.dropWhile (·.kind != .leftBrace))) := by
  induction rest generalizing fuel run with
  | nil =>
    obtain ⟨fuel, rfl⟩ := exists_fuel hfuel
    simp [whereFrom, current_nil, hs.kind_endOfFile]
  | cons t ts ih =>
    obtain ⟨fuel, rfl⟩ := exists_fuel hfuel
    have htail := suffix_of_cons h
    have hkind := hs.kind_head h
    rw [whereFrom, current_cons h, ok_bind, take_cons hs h, ok_bind]
    dsimp only
    rw [ih htail (by simpa using hfuel)]
    by_cases hbrace : t.kind = .leftBrace <;> simp [hbrace, hkind]

end Ended

end EnumForge.Checked
