import EnumForge.Text.Position

/-!
# Failures

What can go wrong when a source is read, when one expansion runs, and when a whole file is
expanded or fixed.  Each failure is a cause with its data; the wording is one function per type.
-/

namespace EnumForge

open Text (LineColumn)

/-- Why a source could not be read.  `π` is the type of places: byte offsets while reading,
lines and columns once the source is at hand. -/
inductive ParseError (π : Type) where
  | unexpectedToken (expected found : String) (place : π)
  | unexpectedEnd (expected : String)
  | unterminatedString (place : π)
  | unterminatedComment (place : π)
  | unbalancedDelimiter (delimiter : String) (place : π)
  /-- Exactly one declaration was asked for. -/
  | declarationCount (found : Nat)
deriving DecidableEq, Repr

namespace ParseError

variable {π ρ : Type}

def map (f : π → ρ) : ParseError π → ParseError ρ
  | unexpectedToken expected found place => unexpectedToken expected found (f place)
  | unexpectedEnd expected => unexpectedEnd expected
  | unterminatedString place => unterminatedString (f place)
  | unterminatedComment place => unterminatedComment (f place)
  | unbalancedDelimiter delimiter place => unbalancedDelimiter delimiter (f place)
  | declarationCount found => declarationCount found

/-- The same failure with offsets turned into places of `source`. -/
def locate (source : String) (e : ParseError Nat) : ParseError LineColumn :=
  e.map (LineColumn.ofOffset source)

private def placed (place : LineColumn) (text : String) : String :=
  toString place.line ++ ":" ++ toString place.column ++ ": " ++ text

def message : ParseError LineColumn → String
  | unexpectedToken expected found place =>
    placed place ("expected " ++ expected ++ ", found `" ++ found ++ "`")
  | unexpectedEnd expected => "unexpected end of input: expected " ++ expected
  | unterminatedString place => placed place "unterminated string literal"
  | unterminatedComment place => placed place "unterminated block comment"
  | unbalancedDelimiter delimiter place => placed place ("unbalanced `" ++ delimiter ++ "`")
  | declarationCount found =>
    "expected exactly one declaration, found " ++ toString found

end ParseError

theorem bind_eq_ok {ε α β : Type} {x : Except ε α} {f : α → Except ε β} {b : β} :
    (x >>= f) = .ok b ↔ ∃ a, x = .ok a ∧ f a = .ok b := by
  cases x <;> simp [bind, Except.bind]

theorem mapError_eq_ok {ε ε' α : Type} {f : ε → ε'} {x : Except ε α} {a : α} :
    x.mapError f = .ok a ↔ x = .ok a := by
  cases x with
  | error e =>
    have herror : Except.mapError f (.error e : Except ε α) = .error (f e) := rfl
    simp [herror]
  | ok b =>
    have hok : Except.mapError f (.ok b) = .ok b := rfl
    simp [hok]

/-- Why one expansion failed.  Other expansions of the same file go on. -/
inductive ExpansionError where
  | invalidIdentifier (text : String)
  | other (reason : String)
deriving DecidableEq, Repr

namespace ExpansionError

def message : ExpansionError → String
  | invalidIdentifier text => "`" ++ text ++ "` is not a valid identifier"
  | other reason => "expansion failed: " ++ reason

end ExpansionError

/-- Why a file could not be expanded or fixed. -/
inductive HostError where
  | parse (cause : ParseError LineColumn)
  /-- Two replacements meet; `offset` is where the later one starts. -/
  | overlappingFixIts (offset : Nat)
  /-- The replaced declaration has no place in the source. -/
  | missingSpan (fixIt : String)
deriving DecidableEq, Repr

namespace HostError

def message : HostError → String
  | parse cause => "parse error: " ++ cause.message
  | overlappingFixIts offset => "fix-its overlap at byte " ++ toString offset
  | missingSpan fixIt => "fix-it `" ++ fixIt ++ "` replaces a node without a source position"

end HostError

end EnumForge
