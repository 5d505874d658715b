import EnumForge.Proofs.Checked.Guarded
import EnumForge.Proofs.Token.Boundary
import EnumForge.Proofs.Token.Stream
import EnumForge.Token.Lexer

/-!
# Reading trivia by byte positions

A scanner over a source and a byte position looks at the source from its position on and slices
comments out of it, for as many steps as the source has characters.  Where it stands is a place
between two characters, and it reads the trivia that is read from the text behind that place.
-/

namespace EnumForge.Checked

open Text (byteSize splitAtFirst? trimEnd)

/-- The byte of `cs` where `pattern` first occurs. -/
def find (pattern cs : List Char) : Option Nat :=
  (splitAtFirst? pattern cs).map fun p ↦ byteSize p.1

variable (source : List Char)

/-- No loop of the lexer takes more steps. -/
def bound : Nat := source.length + 1

def peek (pos : Nat) : Guarded (Option Char) := do
  let rest ← sliceFrom pos source
  return rest.head?

def peekSecond (pos : Nat) : Guarded (Option Char) := do
  let rest ← sliceFrom pos source
  return rest[1]?

/-- The next character and the position behind it. -/
def bump (pos : Nat) : Guarded (Option Char × Nat) := do
  match ← peek source pos with
  | none => return (none, pos)
  | some c => return (some c, pos + c.utf8Size)

def eatWhile (test : Char → Bool) : Nat → Nat → Guarded Nat
  | 0, _ => fault .endless
  | fuel + 1, pos => do
    if (← peek source pos).any test then
      let (_, pos) ← bump source pos
      eatWhile test fuel pos
    else return pos

/-! ### Trivia -/

/-- The piece that a character makes by itself at `pos`. -/
def blankPiece? (sameLine : Bool) (pos : Nat) : Char → Option TriviaPiece
  | ' ' => some (.spaces 1)
  | '\t' => some (.tabs 1)
  | '\n' => if sameLine then none else some (.newlines 1)
  | '\r' => if sameLine then none else some (.carriageReturns 1)
  | '\uFEFF' => if pos = 0 then some .byteOrderMark else none
  | _ => none

def lexTrivia (sameLine : Bool) : Nat → Trivia → Nat → Guarded (Trivia × Nat)
  | 0, _, _ => fault .endless
  | fuel + 1, acc, pos => do
    match ← peek source pos with
    | none => return (acc, pos)
    | some c =>
      let second ← peekSecond source pos
      match blankPiece? sameLine pos c with
      | some piece =>
        let (_, pos) ← bump source pos
        lexTrivia sameLine fuel (acc.push piece) pos
      | none =>
        if c = '/' ∧ second = some '/' then
          let rest ← sliceFrom pos source
          let line ← sliceTo ((find ['\n'] rest).getD (byteSize rest)) rest
          let comment := trimEnd '\r' line
          lexTrivia sameLine fuel (acc.push (.lineComment (String.ofList comment)))
            (pos + byteSize comment)
        else if c = '/' ∧ second = some '*' then
          let rest ← sliceFrom pos source
          match find ['*', '/'] (← sliceFrom 2 rest) with
          | none => refuse (.unterminatedComment pos)
          | some stop =>
            let comment ← sliceTo (stop + 4) rest
            lexTrivia sameLine fuel (acc.push (.blockComment (String.ofList comment)))
              (pos + byteSize comment)
        else return (acc, pos)

/-! ### Positions and texts -/

/-- The byte of the source from which on `rest` is left. -/
def place (rest : List Char) : Nat := byteSize source - byteSize rest

variable {source} {cs rest : List Char}

theorem length_lt_bound (h : rest <:+ source) : rest.length < bound source :=
  Nat.lt_succ_of_le h.length_le

theorem place_append (h : cs ++ rest <:+ source) :
    place source (cs ++ rest) + byteSize cs = place source rest := by
  obtain ⟨before, rfl⟩ := h
  simp only [place, Text.byteSize_append]
  omega

theorem place_cons {c : Char} (h : c :: rest <:+ source) :
    place source (c :: rest) + c.utf8Size = place source rest := by
  have happend : [c] ++ rest <:+ source := h
  simpa using place_append happend

theorem sliceFrom_place (h : rest <:+ source) :
    sliceFrom (place source rest) source = .ok rest := by
  obtain ⟨before, rfl⟩ := h
  have hplace : place (before ++ rest) rest = byteSize before := by simp [place]
  rw [hplace, sliceFrom_append]

theorem slice_place (h : cs ++ rest <:+ source) :
    slice (place source (cs ++ rest)) (place source rest) source = .ok cs := by
  rw [← place_append h]
  obtain ⟨before, rfl⟩ := h
  have hplace : place (before ++ (cs ++ rest)) (cs ++ rest) = byteSize before := by simp [place]
  rw [hplace, slice_append]

theorem peek_place (h : rest <:+ source) : peek source (place source rest) = .ok rest.head? := by
  rw [peek, sliceFrom_place h]
  rfl

theorem peekSecond_place (h : rest <:+ source) :
    peekSecond source (place source rest) = .ok rest[1]? := by
  rw [peekSecond, sliceFrom_place h]
  rfl

theorem bump_cons {c : Char} (h : c :: rest <:+ source) :
    bump source (place source (c :: rest)) = .ok (some c, place source rest) := by
  rw [bump, peek_place h, ← place_cons h]
  rfl

theorem bump_nil : bump source (place source []) = .ok (none, place source []) := by
  rw [bump, peek_place (List.nil_suffix)]
  rfl

theorem eatWhile_place {test : Char → Bool} {fuel : Nat} (h : rest <:+ source)
    (hfuel : rest.length < fuel) :
    eatWhile source test fuel (place source rest) = .ok (place source (rest.dropWhile test)) := by
  induction fuel generalizing rest with
  | zero => omega
  | succ fuel ih =>
    rw [eatWhile, peek_place h, ok_bind]
    cases rest with
    | nil => rfl
    | cons c rest =>
      rw [List.head?_cons, Option.any_some, List.dropWhile_cons]
      split
      · rw [bump_cons h, ok_bind]
        exact ih (suffix_of_cons h) (by simpa using hfuel)
      · rfl

/-! ### Trivia -/

/-- A result about texts as one about positions. -/
def atPlaces {α : Type} (source : List Char) :
    Except (ParseError (List Char)) (α × List Char) → Guarded (α × Nat)
  | .ok (a, rest) => .ok (a, place source rest)
  | .error e => refuse (e.map (place source))

theorem find_line (cs : List Char) :
    (find ['\n'] cs).getD (byteSize cs) = byteSize (cs.takeWhile (· != '\n')) := by
  induction cs with
  | nil => rfl
  | cons c cs ih =>
    rw [find, splitAtFirst?, List.takeWhile_cons]
    by_cases hc : c = '\n'
    · simp [hc]
    · have hstart : ¬['\n'].isPrefixOf (c :: cs) = true := by simpa using Ne.symm hc
      rw [if_neg hstart, if_pos (by simpa using hc), Text.byteSize_cons, Text.byteSize_cons, ← ih,
        find]
      cases splitAtFirst? ['\n'] cs <;> simp

theorem sliceTo_line (cs : List Char) :
    sliceTo ((find ['\n'] cs).getD (byteSize cs)) cs = .ok (cs.takeWhile (· != '\n')) := by
  have hsplit := sliceTo_append (cs.takeWhile (· != '\n')) (cs.dropWhile (· != '\n'))
  rw [List.takeWhile_append_dropWhile] at hsplit
  rw [find_line, hsplit]

section

variable {sameLine : Bool} {acc : Trivia} {fuel : Nat}

theorem lexTrivia_blank {c : Char} {piece : TriviaPiece} (h : c :: rest <:+ source)
    (hpiece : blankPiece? sameLine (place source (c :: rest)) c = some piece) :
    lexTrivia source sameLine (fuel + 1) acc (place source (c :: rest)) =
      lexTrivia source sameLine fuel (acc.push piece) (place source rest) := by
  rw [lexTrivia, peek_place h, ok_bind, List.head?_cons]
  dsimp only
  rw [peekSecond_place h, ok_bind, hpiece]
  dsimp only
  rw [bump_cons h, ok_bind]

theorem blankPiece?_slash (pos : Nat) : blankPiece? sameLine pos '/' = none := rfl

theorem trimEnd_lineComment (cs : List Char) :
    trimEnd '\r' (('/' :: '/' :: cs).takeWhile (· != '\n')) =
      '/' :: '/' :: Trivia.commentBody cs := by
  have hline : ('/' :: '/' :: cs).takeWhile (· != '\n') =
      '/' :: '/' :: cs.takeWhile (· != '\n') := by
    simp
  rw [hline, Trivia.commentBody, trimEnd, trimEnd, List.reverse_cons, List.reverse_cons,
    List.append_assoc, List.dropWhile_append]
  split
  next hempty =>
    rw [List.isEmpty_iff.1 hempty]
    rfl
  next => simp

theorem lexTrivia_lineComment (h : '/' :: '/' :: rest <:+ source) :
    lexTrivia source sameLine (fuel + 1) acc (place source ('/' :: '/' :: rest)) =
      lexTrivia source sameLine fuel
        (acc.push (.lineComment (String.ofList ('/' :: '/' :: Trivia.commentBody rest))))
        (place source (rest.drop (Trivia.commentBody rest).length)) := by
  have hcomment : '/' :: '/' :: rest = ('/' :: '/' :: Trivia.commentBody rest) ++
      rest.drop (Trivia.commentBody rest).length := by
    rw [List.cons_append, List.cons_append, Trivia.commentBody_append_drop]
  have hafter : ('/' :: '/' :: Trivia.commentBody rest) ++
      rest.drop (Trivia.commentBody rest).length <:+ source := hcomment ▸ h
  have hplace := place_append hafter
  rw [← hcomment] at hplace
  rw [lexTrivia, peek_place h, ok_bind, List.head?_cons]
  dsimp only
  rw [peekSecond_place h, ok_bind, blankPiece?_slash]
  dsimp only
  rw [if_pos ⟨rfl, rfl⟩, sliceFrom_place h, ok_bind, sliceTo_line, ok_bind, trimEnd_lineComment,
    hplace]

theorem lexTrivia_blockComment (h : '/' :: '*' :: rest <:+ source) :
    lexTrivia source sameLine (fuel + 1) acc (place source ('/' :: '*' :: rest)) =
      match splitAtFirst? ['*', '/'] rest with
      | none => refuse (.unterminatedComment (place source ('/' :: '*' :: rest)))
      | some (body, after) => lexTrivia source sameLine fuel
          (acc.push (.blockComment (String.ofList ('/' :: '*' :: (body ++ ['*', '/'])))))
          (place source after) := by
  rw [lexTrivia, peek_place h, ok_bind, List.head?_cons]
  dsimp only
  rw [peekSecond_place h, ok_bind, blankPiece?_slash]
  dsimp only
  have hsecond : sliceFrom 2 ('/' :: '*' :: rest) = .ok rest := sliceFrom_append ['/', '*'] rest
  rw [if_neg (by simp), if_pos ⟨rfl, rfl⟩, sliceFrom_place h, ok_bind, hsecond, ok_bind, find]
  cases hclose : splitAtFirst? ['*', '/'] rest with
  | none => rfl
  | some split =>
    obtain ⟨body, after⟩ := split
    have hrest := Text.append_of_splitAtFirst? hclose
    have hcomment : '/' :: '*' :: rest = ('/' :: '*' :: (body ++ ['*', '/'])) ++ after := by
      simp [← hrest]
    have hsize : byteSize body + 4 = byteSize ('/' :: '*' :: (body ++ ['*', '/'])) := by
      rw [Text.byteSize_cons, Text.byteSize_cons, Text.byteSize_append]
      show byteSize body + 4 = 1 + (1 + (byteSize body + 2))
      omega
    rw [Option.map_some]
    dsimp only
    rw [hsize, hcomment, sliceTo_append, ok_bind, place_append (hcomment ▸ h)]

/-- Trivia stops before a character that starts none. -/
theorem lexTrivia_stop (h : rest <:+ source)
    (hblank : ∀ c ∈ rest.head?, blankPiece? sameLine (place source rest) c = none)
    (hcomment : ∀ after, rest ≠ '/' :: '/' :: after ∧ rest ≠ '/' :: '*' :: after) :
    lexTrivia source sameLine (fuel + 1) acc (place source rest) =
      .ok (acc, place source rest) := by
  rw [lexTrivia, peek_place h, ok_bind]
  cases rest with
  | nil => rfl
  | cons c rest =>
    rw [List.head?_cons]
    dsimp only
    rw [peekSecond_place h, ok_bind, hblank c rfl]
    dsimp only
    have hnext (d : Char) (hd : ∀ after, c :: rest ≠ '/' :: d :: after) :
        ¬(c = '/' ∧ (c :: rest)[1]? = some d) := by
      rintro ⟨rfl, hsecond⟩
      cases rest with
      | nil => simp at hsecond
      | cons e after =>
        obtain rfl : e = d := by simpa using hsecond
        exact hd after rfl
    rw [if_neg (hnext '/' fun after ↦ (hcomment after).1),
      if_neg (hnext '*' fun after ↦ (hcomment after).2)]
    rfl

theorem place_ne_zero {c : Char} {after : List Char} (h : c :: rest <:+ source)
    (hafter : after <:+ rest) : place source after ≠ 0 := by
  obtain ⟨between, rfl⟩ := hafter
  have hbetween := place_append (suffix_of_cons h)
  have hplace := place_cons h
  have hsize := c.utf8Size_pos
  omega

theorem lexTrivia_place (h : rest <:+ source) (hfuel : rest.length < fuel)
    (hmark : place source rest = 0 → rest.head? ≠ some '\uFEFF') :
    lexTrivia source sameLine fuel acc (place source rest) =
      atPlaces source ((Trivia.scan sameLine acc rest).mapError .unterminatedComment) := by
  have hbehind {c : Char} {rest after : List Char} (h : c :: rest <:+ source)
      (hafter : after <:+ rest) : place source after = 0 → after.head? ≠ some '\uFEFF' :=
    fun hzero ↦ absurd hzero (place_ne_zero h hafter)
  fun_induction Trivia.scan sameLine acc rest generalizing fuel with
  | case1 acc rest ih | case2 acc rest ih =>
    obtain ⟨fuel, rfl⟩ := exists_fuel hfuel
    rw [lexTrivia_blank h rfl]
    exact ih (suffix_of_cons h) (by simpa using hfuel) (hbehind h List.suffix_rfl)
  | case3 acc rest hline | case5 acc rest hline =>
    obtain ⟨fuel, rfl⟩ := exists_fuel hfuel
    refine lexTrivia_stop h ?_ fun after ↦ ⟨?_, ?_⟩
    · rintro c ⟨⟩
      exact if_pos hline
    · simp
    · simp
  | case4 acc rest hline ih | case6 acc rest hline ih =>
    obtain ⟨fuel, rfl⟩ := exists_fuel hfuel
    rw [lexTrivia_blank h (if_neg hline)]
    exact ih (suffix_of_cons h) (by simpa using hfuel) (hbehind h List.suffix_rfl)
  | case7 acc rest ih =>
    obtain ⟨fuel, rfl⟩ := exists_fuel hfuel
    have hafter := List.drop_suffix (Trivia.commentBody rest).length rest
    rw [lexTrivia_lineComment h]
    refine ih (hafter.trans (suffix_of_cons (suffix_of_cons h))) ?_
      (hbehind h (hafter.trans (List.suffix_cons _ _)))
    have hle := hafter.length_le
    simp only [List.length_cons] at hfuel
    omega
  | case8 acc rest hclose =>
    obtain ⟨fuel, rfl⟩ := exists_fuel hfuel
    rw [lexTrivia_blockComment h, hclose]
    rfl
  | case9 acc rest body after hclose ih =>
    obtain ⟨fuel, rfl⟩ := exists_fuel hfuel
    have hafter : after <:+ rest :=
      ⟨body ++ ['*', '/'], by rw [← Text.append_of_splitAtFirst? hclose, List.append_assoc]⟩
    rw [lexTrivia_blockComment h, hclose]
    refine ih (hafter.trans (suffix_of_cons (suffix_of_cons h))) ?_
      (hbehind h (hafter.trans (List.suffix_cons _ _)))
    have hle := hafter.length_le
    simp only [List.length_cons] at hfuel
    omega
  | case10 acc rest hspace htab hbreak hreturn hline hblock =>
    obtain ⟨fuel, rfl⟩ := exists_fuel hfuel
    refine lexTrivia_stop h ?_ fun after ↦ ⟨hline after, hblock after⟩
    intro c hc
    obtain ⟨after, rfl⟩ := List.head?_eq_some_iff.1 hc
    unfold blankPiece?
    split
    · exact absurd rfl (hspace after)
    · exact absurd rfl (htab after)
    · exact absurd rfl (hbreak after)
    · exact absurd rfl (hreturn after)
    · exact if_neg fun hzero ↦ hmark hzero rfl
    · rfl

end

end EnumForge.Checked
