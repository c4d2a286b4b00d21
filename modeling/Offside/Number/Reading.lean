import Offside.Number.Binary64

/-! # Reading numbers

The texts that stand for a number, and the double nearest to each: decimal numerals with an
optional sign, point and exponent, and the names of infinity and not-a-number in any letter case.
-/

namespace Offside

/-- The digits of a numeral, and the power of ten that the last one counts. -/
structure Decimal where
  negative : Bool
  digits : List Char
  exponent : Int
deriving DecidableEq

namespace Decimal

def natOfDigits (digits : List Char) : Nat :=
  digits.foldl (fun n c => 10 * n + (c.toNat - '0'.toNat)) 0

/-- The double nearest to a decimal. Exponents far out of range are settled before any power of ten
is taken: a positive whole number times `10 ^ 310` is infinite, and anything below `10 ^ (-400)` is
zero. -/
def toBinary64 (decimal : Decimal) : Binary64 :=
  let n := natOfDigits decimal.digits
  if n = 0 then .ofMagnitude decimal.negative 0
  else if 310 < decimal.exponent then .infinity decimal.negative
  else if decimal.exponent + decimal.digits.length < -400 then .ofMagnitude decimal.negative 0
  else if 0 ≤ decimal.exponent then
    .ofFraction decimal.negative (n * Nat.pow 10 decimal.exponent.toNat) 1
  else .ofFraction decimal.negative n (Nat.pow 10 (-decimal.exponent).toNat)

end Decimal

namespace Binary64

/-- A sign, if there is one, and what follows it. -/
def splitSign : List Char → Bool × List Char
  | '-' :: rest => (true, rest)
  | '+' :: rest => (false, rest)
  | text => (false, text)

/-- The exponent at the end of a numeral, 0 if nothing is written. -/
def readExponent? : List Char → Option Int
  | [] => some 0
  | c :: rest =>
    if c = 'e' || c = 'E' then
      let (negative, digits) := splitSign rest
      if digits.isEmpty || !digits.all Char.isDigit then none
      else
        let n : Int := Decimal.natOfDigits digits
        some (if negative then -n else n)
    else none

/-- A numeral without its sign: digits on at least one side of the point. -/
def readDecimal? (negative : Bool) (text : List Char) : Option Decimal :=
  let whole := text.takeWhile Char.isDigit
  let (part, rest) := match text.dropWhile Char.isDigit with
    | '.' :: rest => (rest.takeWhile Char.isDigit, rest.dropWhile Char.isDigit)
    | rest => ([], rest)
  if whole.isEmpty && part.isEmpty then none
  else
    (readExponent? rest).map fun exponent => ⟨negative, whole ++ part, exponent - part.length⟩

/-- The number a text stands for. -/
def read? (text : List Char) : Option Binary64 :=
  let (negative, rest) := splitSign text
  let name := rest.map Char.toLower
  if name = ['i', 'n', 'f'] || name = ['i', 'n', 'f', 'i', 'n', 'i', 't', 'y'] then
    some (infinity negative)
  else if name = ['n', 'a', 'n'] then some nan
  else (readDecimal? negative rest).map (·.toBinary64)

end Binary64

end Offside
