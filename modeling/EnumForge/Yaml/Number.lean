/-!
# Numbers in YAML

Which plain scalars read as numbers: integers in base ten, sixteen, eight and two, and decimal
fractions whose value is a finite double.
-/

namespace EnumForge.Yaml

def isDigits (cs : List Char) : Bool := !cs.isEmpty && cs.all Char.isDigit

/-- The value of a digit up to fifteen. -/
def digitValue? (c : Char) : Option Nat :=
  if c.isDigit then some (c.toNat - '0'.toNat)
  else if 'a' ≤ c ∧ c ≤ 'f' then some (c.toNat - 'a'.toNat + 10)
  else if 'A' ≤ c ∧ c ≤ 'F' then some (c.toNat - 'A'.toNat + 10)
  else none

/-- The value of digits in a base; none without digits. -/
def natOfDigits? (base : Nat) (cs : List Char) : Option Nat :=
  if cs.isEmpty then none
  else cs.foldlM (fun n c ↦
    (digitValue? c).bind fun d ↦ if d < base then some (n * base + d) else none) 0

/-- The value of an integer written with a base mark. -/
def basedNat? : List Char → Option Nat
  | '0' :: 'x' :: cs => natOfDigits? 16 cs
  | '0' :: 'o' :: cs => natOfDigits? 8 cs
  | '0' :: 'b' :: cs => natOfDigits? 2 cs
  | _ => none

/-- An integer with a base mark and at most 128 bits. -/
def isBasedInteger : List Char → Bool
  | '-' :: cs => (basedNat? cs).any (· ≤ Nat.pow 2 127)
  | '+' :: cs => (basedNat? cs).any (· < Nat.pow 2 128)
  | cs => (basedNat? cs).any (· < Nat.pow 2 128)

def dropSign : List Char → List Char
  | '-' :: cs => cs
  | '+' :: cs => cs
  | cs => cs

/-- Digits after a leading zero, which are no number but look like one. -/
def isZeroPadded (cs : List Char) : Bool :=
  match dropSign cs with
  | '0' :: rest => isDigits rest
  | _ => false

/-- A decimal fraction: its digits as one number, and the power of ten they are scaled by. -/
structure Decimal where
  mantissa : Nat
  exponent : Int

/-- The exponent part: `e` or `E`, an optional sign, and digits; zero if there is none. -/
def exponentOf? : List Char → Option Int
  | [] => some 0
  | c :: cs =>
    if c = 'e' ∨ c = 'E' then
      match cs with
      | '-' :: ds => (natOfDigits? 10 ds).map fun n ↦ -(n : Int)
      | ds => (natOfDigits? 10 (dropSign ds)).map Int.ofNat
    else none

/-- A decimal fraction without a sign: digits with at most one point, and an exponent. -/
def decimalOf? (cs : List Char) : Option Decimal :=
  let whole := cs.takeWhile Char.isDigit
  let rest := cs.dropWhile Char.isDigit
  let (fraction, rest) := match rest with
    | '.' :: rest => (rest.takeWhile Char.isDigit, rest.dropWhile Char.isDigit)
    | rest => ([], rest)
  match natOfDigits? 10 (whole ++ fraction), exponentOf? rest with
  | some mantissa, some e => some ⟨mantissa, e - fraction.length⟩
  | _, _ => none

/-- Whether the nearest double is finite: the value lies below the middle between the largest
double and the next power of two. -/
def Decimal.isFinite (d : Decimal) : Bool :=
  let magnitude : Int := (toString d.mantissa).length + d.exponent
  if d.mantissa = 0 ∨ magnitude ≤ 308 then true
  else if 309 < magnitude then false
  else if 0 ≤ d.exponent then
    d.mantissa * Nat.pow 10 d.exponent.toNat < Nat.pow 2 1024 - Nat.pow 2 970
  else d.mantissa < (Nat.pow 2 1024 - Nat.pow 2 970) * Nat.pow 10 (-d.exponent).toNat

/-- The words for infinity and for a value that is no number. -/
def isNumberWord (text : String) : Bool :=
  [".inf", ".Inf", ".INF", "+.inf", "+.Inf", "+.INF", "-.inf", "-.Inf", "-.INF",
   ".nan", ".NaN", ".NAN"].contains text

def isDecimal (cs : List Char) : Bool := (decimalOf? (dropSign cs)).any Decimal.isFinite

/-- Whether a plain scalar reads as a number, or looks like one. -/
def looksNumeric (text : String) : Bool :=
  let cs := text.toList
  isBasedInteger cs || isZeroPadded cs || isDecimal cs || isNumberWord text

end EnumForge.Yaml
