/-!
# Lines of a text
-/

namespace EnumForge.Text

/-- The lines of a text; a line break at the very end starts no further line. -/
def splitLines : List Char → List (List Char)
  | [] => []
  | c :: cs =>
    if c = '\n' then [] :: splitLines cs
    else match splitLines cs with
      | [] => [[c]]
      | l :: ls => (c :: l) :: ls

/-- A line without the carriage return at its end. -/
def dropReturn (line : List Char) : List Char :=
  if line.getLast? = some '\r' then line.dropLast else line

/-- `n` copies of a character. -/
def copies (n : Nat) (c : Char) : String := String.ofList (List.replicate n c)

/-- The decimal text of `n`, filled up with spaces on the left. -/
def padNat (width n : Nat) : String :=
  let digits := toString n
  copies (width - digits.length) ' ' ++ digits

end EnumForge.Text
