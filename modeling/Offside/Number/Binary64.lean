/-! # Binary floating point

Doubles as bit patterns. A finite magnitude is `mantissa * 2 ^ exponent`, with an exponent of at
least -1074 and a mantissa below `2 ^ 53`. Powers are called by name, so that they mean the same
whichever instances are in scope.
-/

namespace Offside

/-- A double by its 64 bits. -/
structure Binary64 where
  bits : UInt64
deriving DecidableEq, Inhabited

namespace Binary64

/-- The least magnitude that is not finite: infinity has these bits and no others. -/
def infinityBits : Nat :=
  0x7FF0000000000000

/-- The bits without the sign. -/
def magnitude (x : Binary64) : Nat :=
  x.bits.toNat % Nat.pow 2 63

def isNegative (x : Binary64) : Bool :=
  Nat.pow 2 63 ≤ x.bits.toNat

def isNaN (x : Binary64) : Bool :=
  infinityBits < x.magnitude

def isInfinite (x : Binary64) : Bool :=
  x.magnitude = infinityBits

def isZero (x : Binary64) : Bool :=
  x.magnitude = 0

def ofMagnitude (negative : Bool) (magnitude : Nat) : Binary64 :=
  ⟨(if negative then Nat.pow 2 63 + magnitude else magnitude).toUInt64⟩

def infinity (negative : Bool) : Binary64 :=
  ofMagnitude negative infinityBits

def nan : Binary64 :=
  ofMagnitude false (infinityBits + Nat.pow 2 51)

/-- Equality of values: not-a-number differs from itself, and the two zeros are equal. -/
def same (x y : Binary64) : Bool :=
  !x.isNaN && !y.isNaN && (x.bits == y.bits || (x.isZero && y.isZero))

/-- The mantissa of a finite magnitude. Below the normal magnitudes the leading bit is left out. -/
def mantissa (x : Binary64) : Nat :=
  let fraction := x.magnitude % Nat.pow 2 52
  if x.magnitude < Nat.pow 2 52 then fraction else Nat.pow 2 52 + fraction

/-- The exponent of a finite magnitude. -/
def exponent (x : Binary64) : Int :=
  if x.magnitude < Nat.pow 2 52 then -1074 else (x.magnitude / Nat.pow 2 52 : Nat) - 1075

/-- The bits as sixteen hexadecimal digits. Every not-a-number is written alike. -/
def bitText (x : Binary64) : String :=
  if x.isNaN then "NaN"
  else
    let digits := Nat.toDigits 16 x.bits.toNat
    String.ofList (List.replicate (16 - digits.length) '0' ++ digits)

end Binary64

/-- A fraction `num / den` divided by a power of two, kept as a fraction. -/
def shiftDown (num den : Nat) (exponent : Int) : Nat × Nat :=
  if 0 ≤ exponent then (num, den * Nat.pow 2 exponent.toNat)
  else (num * Nat.pow 2 (-exponent).toNat, den)

/-- The whole number nearest to a fraction. A half goes to the even neighbour. -/
def roundHalfEven (num den : Nat) : Nat :=
  let whole := num / den
  let rest := num % den
  if 2 * rest < den then whole
  else if den < 2 * rest then whole + 1
  else whole + whole % 2

/-- The exponent of the greatest power of two that a positive fraction reaches. -/
def floorLog2 (num den : Nat) : Int :=
  let guess : Int := num.log2 - den.log2
  let (n, d) := shiftDown num den guess
  if d ≤ n then guess else guess - 1

namespace Binary64

/-- The double nearest to a fraction. A tie goes to the even mantissa, and what rounds beyond the
finite magnitudes is infinite. -/
def ofFraction (negative : Bool) (num den : Nat) : Binary64 :=
  if num = 0 then ofMagnitude negative 0
  else
    let exponent := max (floorLog2 num den - 52) (-1074)
    let (n, d) := shiftDown num den exponent
    let magnitude := (exponent + 1074).toNat * Nat.pow 2 52 + roundHalfEven n d
    ofMagnitude negative (min magnitude infinityBits)

end Binary64

end Offside
