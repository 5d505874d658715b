import EnumForge.Text.Search
import EnumForge.Trivia

/-!
# Reading trivia

Trivia at the head of a text.  Before a token everything is taken; after a token the line break
is left for the next one.  What is read and what is left make up the text again.
-/

namespace EnumForge.Trivia

open Text

/-- What follows the `//` of a line comment: the rest of the line without carriage returns at
its end. -/
def commentBody (cs : List Char) : List Char := trimEnd '\r' (cs.takeWhile (· != '\n'))

theorem commentBody_append_drop (cs : List Char) :
    commentBody cs ++ cs.drop (commentBody cs).length = cs :=
  List.prefix_iff_eq_append.1 <| (trimEnd_isPrefix _ _).trans <| List.takeWhile_prefix _

/-- Adds the trivia at the head of `cs` to `acc` and returns the rest; with `sameLine`, stops
before the end of the line.  The failure is the text from an unterminated comment on. -/
def scan (sameLine : Bool) (acc : Trivia) (cs : List Char) :
    Except (List Char) (Trivia × List Char) :=
  match cs with
  | ' ' :: rest => scan sameLine (acc.push (.spaces 1)) rest
  | '\t' :: rest => scan sameLine (acc.push (.tabs 1)) rest
  | '\n' :: rest =>
    if sameLine then .ok (acc, cs) else scan sameLine (acc.push (.newlines 1)) rest
  | '\r' :: rest =>
    if sameLine then .ok (acc, cs) else scan sameLine (acc.push (.carriageReturns 1)) rest
  | '/' :: '/' :: rest =>
    scan sameLine (acc.push (.lineComment (String.ofList ('/' :: '/' :: commentBody rest))))
      (rest.drop (commentBody rest).length)
  | '/' :: '*' :: rest =>
    match _closed : splitAtFirst? ['*', '/'] rest with
    | none => .error cs
    | some (body, after) =>
      scan sameLine
        (acc.push (.blockComment (String.ofList ('/' :: '*' :: (body ++ ['*', '/']))))) after
  | _ => .ok (acc, cs)
termination_by cs.length
decreasing_by
  · simp
  · simp
  · simp
  · simp
  · simp; omega
  · have := congrArg List.length (append_of_splitAtFirst? _closed)
    simp at this ⊢
    omega

/-- What is read and what is left make up the text. -/
theorem toList_text_of_scan {sameLine : Bool} {acc t : Trivia} {cs rest : List Char}
    (h : scan sameLine acc cs = .ok (t, rest)) :
    t.text.toList ++ rest = acc.text.toList ++ cs := by
  fun_induction scan sameLine acc cs with
  | case1 acc rest' ih => simpa [TriviaPiece.text] using ih h
  | case2 acc rest' ih => simpa [TriviaPiece.text] using ih h
  | case3 acc rest' => simp_all
  | case4 acc rest' _ ih => simpa [TriviaPiece.text] using ih h
  | case5 acc rest' => simp_all
  | case6 acc rest' _ ih => simpa [TriviaPiece.text] using ih h
  | case7 acc rest' ih =>
    simpa [TriviaPiece.text, commentBody_append_drop] using ih h
  | case8 => simp at h
  | case9 acc rest' body after closed ih =>
    rw [ih h, ← append_of_splitAtFirst? closed]
    simp [TriviaPiece.text]
  | case10 => simp_all

theorem length_le_of_scan {sameLine : Bool} {t : Trivia} {cs rest : List Char}
    (h : scan sameLine .empty cs = .ok (t, rest)) : rest.length ≤ cs.length := by
  have := congrArg List.length (toList_text_of_scan h)
  simp at this
  omega

end EnumForge.Trivia
