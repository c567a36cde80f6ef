/-! Double precision numbers as exact data: an infinity, or a signed mantissa times a power of
two. -/

namespace ShapeCheck

/-- A double other than a NaN. A finite one is in lowest position: its mantissa has 53 bits, or its
exponent is the least one. -/
inductive Double where
  | finite (negative : Bool) (mantissa : Nat) (exponent : Int)
  | infinite (negative : Bool)
deriving DecidableEq, Repr

namespace Double

/-- The exponent of the subnormal numbers, the least there is. -/
def leastExponent : Int := -1074

/-- The greatest exponent of a 53 bit mantissa. -/
def greatestExponent : Int := 971

/-- The least number that needs more than 53 bits. -/
def fullMantissa : Nat := 9007199254740992

/-- The quotient rounded to the nearest natural number, a tie to the even one. -/
def roundDiv (num den : Nat) : Nat :=
  let q := num / den
  let twice := 2 * (num % den)
  if twice < den || (twice = den && q % 2 = 0) then q else q + 1

/-- The quotient `num / den`, divided by `2 ^ e`, as a pair. -/
def scaleBy (num den : Nat) (e : Int) : Nat × Nat :=
  if 0 ≤ e then (num, den * Nat.pow 2 e.toNat) else (num * Nat.pow 2 (-e).toNat, den)

/-- The exponent at which the quotient `num / den` has a mantissa of at most 53 bits. -/
def exponentFor (num den : Nat) : Int :=
  let guess := max leastExponent ((Nat.log2 num : Int) - Nat.log2 den - 53)
  let (n, d) := scaleBy num den guess
  if n / d < fullMantissa then guess else guess + 1

/-- The double nearest to the quotient `num / den`, a tie to the even mantissa. -/
def ofQuotient (negative : Bool) (num den : Nat) : Double :=
  if num = 0 then .finite negative 0 leastExponent
  else
    let e := exponentFor num den
    let (n, d) := scaleBy num den e
    let m := roundDiv n d
    let (m, e) := if m = fullMantissa then (fullMantissa / 2, e + 1) else (m, e)
    if greatestExponent < e then .infinite negative else .finite negative m e

/-- The double nearest to `digits · 10 ^ exponent`. -/
def ofDecimal (negative : Bool) (digits : Nat) (exponent : Int) : Double :=
  if 0 ≤ exponent then ofQuotient negative (digits * Nat.pow 10 exponent.toNat) 1
  else ofQuotient negative digits (Nat.pow 10 (-exponent).toNat)

/-- A power of two with any exponent. -/
def pow2 (e : Int) : Rat :=
  if 0 ≤ e then (Nat.pow 2 e.toNat : Rat) else 1 / (Nat.pow 2 (-e).toNat : Rat)

/-- The size of a finite double. -/
def magnitude (mantissa : Nat) (exponent : Int) : Rat :=
  (mantissa : Rat) * pow2 exponent

end Double
end ShapeCheck
