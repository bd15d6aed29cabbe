import LineLint.Text

/-!
# Numbers of double precision

A decimal number is stored as the nearest multiple of a power of two with 53 binary digits, or
fewer near zero; of two nearest ones the even one is taken. It is written with the fewest decimal
digits that lead back to it, and of those the nearest to it.
-/

namespace LineLint

inductive Binary64 where
  | nan
  | infinite (negative : Bool)
  /-- `mantissa * 2 ^ exponent`. -/
  | finite (negative : Bool) (mantissa : Nat) (exponent : Int)
  deriving DecidableEq, Inhabited

namespace Binary64

/-- The quotient rounded to the nearest number, and to the even one of two. -/
def roundQuotient (a b : Nat) : Nat :=
  let q := a / b
  let twice := 2 * (a % b)
  if b < twice || (twice == b && q % 2 == 1) then q + 1 else q

/-- A fraction times a power of a base, again as a fraction. -/
def scaled (base : Nat) (exponent : Int) (a b : Nat) : Nat × Nat :=
  if 0 ≤ exponent then (a * Nat.pow base exponent.toNat, b)
  else (a, b * Nat.pow base exponent.natAbs)

/-- The exponent of the greatest power of two that is at most `a / b`, both being positive. -/
def binaryExponent (a b : Nat) : Int :=
  let guess : Int := Int.ofNat a.log2 - Int.ofNat b.log2
  let (x, y) := scaled 2 (-guess) a b
  if y ≤ x then guess else guess - 1

def ofFraction (negative : Bool) (a b : Nat) : Binary64 :=
  let exponent := max (binaryExponent a b - 52) (-1074)
  let (x, y) := scaled 2 (-exponent) a b
  let mantissa := roundQuotient x y
  let (mantissa, exponent) :=
    if mantissa == Nat.pow 2 53 then (Nat.pow 2 52, exponent + 1) else (mantissa, exponent)
  if 971 < exponent then infinite negative else finite negative mantissa exponent

def digitCount (n : Nat) : Nat := (toString n).length

/-- The number nearest to `coefficient * 10 ^ exponent`. -/
def ofDecimal (negative : Bool) (coefficient : Nat) (exponent : Int) : Binary64 :=
  let size := Int.ofNat (digitCount coefficient) + exponent
  if coefficient == 0 || size < -400 then finite negative 0 0
  else if 400 < size then infinite negative
  else
    let (a, b) := scaled 10 exponent coefficient 1
    ofFraction negative a b

/-- A decimal number `digits * 10 ^ exponent`. -/
structure Decimal where
  digits : Nat
  exponent : Int

/-- A positive number between the halfway points to its neighbours, all in quarters of
`2 ^ exponent`. The ends belong to it if the mantissa is even. -/
structure Interval where
  low : Nat
  middle : Nat
  high : Nat
  closed : Bool
  exponent : Int

def interval (mantissa : Nat) (exponent : Int) : Interval :=
  { low :=
      if mantissa == Nat.pow 2 52 && -1074 < exponent then 4 * mantissa - 1 else 4 * mantissa - 2
    middle := 4 * mantissa
    high := 4 * mantissa + 2
    closed := mantissa % 2 == 0
    exponent := exponent - 2 }

namespace Interval

/-- The greatest decimal with a given exponent that is not above a number of quarters, and what is
left, as a fraction of one unit of that exponent. -/
def floorAt (i : Interval) (exponent : Int) : Nat × Nat × Nat :=
  let (a, b) := scaled 2 i.exponent i.middle 1
  let (x, y) := scaled 10 (-exponent) a b
  (x / y, x % y, y)

def holds (i : Interval) (d : Decimal) : Bool :=
  let (a, b) := scaled 10 d.exponent d.digits 1
  let (x, y) := scaled 2 (-i.exponent) a b
  if i.closed then i.low * y ≤ x && x ≤ i.high * y else i.low * y < x && x < i.high * y

/-- The decimal with a given exponent that is nearest to the middle, if it lies in the interval. -/
def nearestAt? (i : Interval) (exponent : Int) : Option Decimal :=
  let (below, left, one) := i.floorAt exponent
  let lower : Decimal := ⟨below, exponent⟩
  let upper : Decimal := ⟨below + 1, exponent⟩
  let preferLower := 2 * left < one || (2 * left == one && below % 2 == 0)
  let candidates := if preferLower then [lower, upper] else [upper, lower]
  candidates.find? fun d => 0 < d.digits && i.holds d

/-- Tries exponents downwards from the given one. -/
def shortestFrom (i : Interval) (exponent : Int) : Nat → Decimal
  | 0 => ⟨i.middle, 0⟩
  | tries + 1 =>
      match i.nearestAt? exponent with
      | some d => d
      | none => shortestFrom i (exponent - 1) tries

end Interval

/-- The exponent of a power of ten above `mantissa * 2 ^ exponent`, by at most a factor of 100. -/
def decimalBound (mantissa : Nat) (exponent : Int) : Int :=
  Int.fdiv ((Int.ofNat mantissa.log2 + 1 + exponent) * 30103) 100000 + 1

/-- The shortest decimal that leads back to a positive number; 17 digits always do. -/
def shortest (mantissa : Nat) (exponent : Int) : Decimal :=
  (interval mantissa exponent).shortestFrom (decimalBound mantissa exponent) 20

/-- The decimal digits without zeros at their end, and the exponent of the first of them. -/
def significant (d : Decimal) : Text × Int :=
  let ds := (toString d.digits).toList
  (Text.dropRightWhile (· == '0') ds, d.exponent + Int.ofNat ds.length - 1)

/-- A positive decimal with at least one digit on each side of the point. Below a ten-thousandth and
from `10 ^ 16` on it is written with an exponent of at least two digits. -/
def decimalText (d : Decimal) : Text :=
  let (ds, exponent) := significant d
  if exponent < -4 || 16 ≤ exponent then
    let fraction := if ds.length ≤ 1 then [] else '.' :: ds.drop 1
    let size := (toString exponent.natAbs).toList
    ds.take 1 ++ fraction ++ ['e', if exponent < 0 then '-' else '+'] ++
      (if size.length < 2 then '0' :: size else size)
  else if exponent < 0 then ['0', '.'] ++ List.replicate (exponent.natAbs - 1) '0' ++ ds
  else
    let whole := exponent.toNat + 1
    let padded := ds ++ List.replicate (whole + 1 - ds.length) '0'
    padded.take whole ++ ['.'] ++ padded.drop whole

def signText (negative : Bool) : Text := if negative then ['-'] else []

def text : Binary64 → Text
  | nan => "nan".toList
  | infinite negative => signText negative ++ "inf".toList
  | finite negative mantissa exponent =>
      signText negative ++
        if mantissa == 0 then "0.0".toList else decimalText (shortest mantissa exponent)

end Binary64

end LineLint
