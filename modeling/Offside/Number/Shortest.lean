import Offside.Number.Binary64

/-! # Shortest decimals

The fewest digits that read back as a given double, and how they are written. The reals that round
to a double form an interval around it, closed exactly if its mantissa is even. The decimal chosen
is the nearest point, on the coarsest decimal grid, of those in the interval.
-/

namespace Offside.Binary64

/-- The number of quarters of the last place from a magnitude down to the end of its interval.
Below a power of two the doubles lie twice as dense. -/
def quartersBelow (x : Binary64) : Nat :=
  if x.mantissa = Nat.pow 2 52 && -1074 < x.exponent then 1 else 2

/-- Whether the magnitude of a finite positive double is the nearest one to `n * 10 ^ scale`. -/
def covers (x : Binary64) (n : Nat) (scale : Int) : Bool :=
  let tens := Nat.pow 10 scale.natAbs
  let num := if 0 ≤ scale then 4 * n * tens else 4 * n
  let den := if 0 ≤ scale then 1 else tens
  let (point, unit) := shiftDown num den x.exponent
  let low := (4 * x.mantissa - x.quartersBelow) * unit
  let high := (4 * x.mantissa + 2) * unit
  if x.mantissa % 2 = 0 then low ≤ point && point ≤ high else low < point && point < high

/-- The quotient of a magnitude and a power of ten, as a fraction. -/
def overPowerOfTen (x : Binary64) (scale : Int) : Nat × Nat :=
  let tens := Nat.pow 10 scale.natAbs
  let (num, den) := shiftDown x.mantissa 1 (-x.exponent)
  if 0 ≤ scale then (num, den * tens) else (num * tens, den)

/-- The point of a grid nearest to a magnitude, of those that read back as it. A tie goes up. -/
def nearestPoint? (x : Binary64) (scale : Int) : Option Nat :=
  let (num, den) := x.overPowerOfTen scale
  let below := num / den
  let upper := den ≤ 2 * (num % den)
  match x.covers below scale, x.covers (below + 1) scale with
  | true, true => some (if upper then below + 1 else below)
  | true, false => some below
  | false, true => some (below + 1)
  | false, false => none

/-- Tries finer and finer grids. -/
def findPoint (x : Binary64) (scale : Int) : Nat → Nat × Int
  | 0 => (x.mantissa, scale)
  | tries + 1 =>
    match x.nearestPoint? scale with
    | some n => (n, scale)
    | none => findPoint x (scale - 1) tries

/-- The shortest decimal of a positive finite double, as a whole number and the power of ten that it
counts. The first grid is coarser than the double is large, and seventeen digits always do. -/
def shortest (x : Binary64) : Nat × Int :=
  let size := (floorLog2 x.mantissa 1 + x.exponent) * 30103 / 100000
  findPoint x (size + 3) 24

/-- Digits with the point among or beside them, and at least one digit on either side of it. -/
def positional (digits : List Char) (scale : Int) : List Char :=
  if 0 ≤ scale then digits ++ List.replicate scale.toNat '0' ++ ['.', '0']
  else
    let places := (-scale).toNat
    if places < digits.length then
      digits.take (digits.length - places) ++ '.' :: digits.drop (digits.length - places)
    else '0' :: '.' :: List.replicate (places - digits.length) '0' ++ digits

/-- Digits with the point after the first one and a power of ten. -/
def exponential (digits : List Char) (exponent : Int) : List Char :=
  let part := if digits.length ≤ 1 then [] else '.' :: digits.drop 1
  digits.take 1 ++ part ++ 'e' :: (toString exponent).toList

/-- A double in decimal: positional from `10 ^ (-4)` up to `10 ^ 16`, and with an exponent outside
of that. -/
def decimalText (x : Binary64) : String :=
  if x.isNaN then "NaN"
  else
    let sign := if x.isNegative then ['-'] else []
    let magnitude :=
      if x.isInfinite then ['i', 'n', 'f']
      else if x.isZero then ['0', '.', '0']
      else
        let (n, scale) := x.shortest
        let digits := Nat.toDigits 10 n
        let exponent := scale + digits.length - 1
        if -4 ≤ exponent && exponent < 16 then positional digits scale
        else exponential digits exponent
    String.ofList (sign ++ magnitude)

end Offside.Binary64
