import ShapeCheck.Number.Double

/-! The shortest decimal that reads back as a given double, and of those the nearest. -/

namespace ShapeCheck.Double

/-- The reals that round to a positive double. -/
structure Interval where
  low : Rat
  high : Rat
  closed : Bool

/-- Ends lie halfway to the neighbours and belong to an even mantissa. Below a power of two the
neighbour is half as far. -/
def roundingInterval (mantissa : Nat) (exponent : Int) : Interval :=
  let unit := pow2 exponent
  let atPower := mantissa = fullMantissa / 2 && leastExponent < exponent
  let below := if atPower then unit / 4 else unit / 2
  let value := magnitude mantissa exponent
  ⟨value - below, value + unit / 2, mantissa % 2 = 0⟩

def Interval.contains (i : Interval) (x : Rat) : Bool :=
  if i.closed then decide (i.low ≤ x ∧ x ≤ i.high) else decide (i.low < x ∧ x < i.high)

/-- A power of ten with any exponent. -/
def pow10 (e : Int) : Rat :=
  if 0 ≤ e then (Nat.pow 10 e.toNat : Rat) else 1 / (Nat.pow 10 (-e).toNat : Rat)

/-- The `p` with `10 ^ (p - 1) ≤ x < 10 ^ p`, for a positive `x`. -/
def decimalPoint (x : Rat) : Int :=
  if 1 ≤ x then ((Nat.toDigits 10 x.floor.toNat).length : Int)
  else
    let k := (Nat.toDigits 10 (1 / x).floor.toNat).length
    if x = pow10 (1 - k) then 2 - k else 1 - k

/-- The point of the grid of step `10 ^ (point - places)` that lies in the interval, nearest to
`x`. A tie goes to the even point. -/
def gridPoint? (i : Interval) (x : Rat) (point : Int) (places : Nat) : Option Nat :=
  let step := pow10 (point - places)
  let low := (x / step).floor.toNat
  let lowIn := i.contains (low * step)
  let highIn := i.contains ((low + 1 : Nat) * step)
  let toLow := x - low * step
  let toHigh := (low + 1 : Nat) * step - x
  if lowIn && highIn then
    if toLow < toHigh || (toLow = toHigh && low % 2 = 0) then some low else some (low + 1)
  else if lowIn then some low
  else if highIn then some (low + 1)
  else none

/-- Tries ever finer grids, `fuel` of them. -/
def searchGrids (i : Interval) (x : Rat) (point : Int) : Nat → Nat → Option (Nat × Nat)
  | 0, _ => none
  | fuel + 1, places =>
    match gridPoint? i x point places with
    | some n => some (n, places)
    | none => searchGrids i x point fuel (places + 1)

/-- Decimal digits and the place of the point in front of them: `0.d₁d₂… · 10 ^ point`. -/
structure Decimal where
  digits : List Char
  point : Int
deriving DecidableEq, Repr

/-- A number over `10 ^ places`, moved by `point`, without trailing zeros. -/
def Decimal.ofGrid (n places : Nat) (point : Int) : Decimal :=
  let ds := Nat.toDigits 10 n
  ⟨(ds.reverse.dropWhile (· = '0')).reverse, point + (ds.length - places)⟩

/-- The shortest decimal of a finite double's size; seventeen digits always suffice. -/
def shortest (mantissa : Nat) (exponent : Int) : Decimal :=
  if mantissa = 0 then ⟨['0'], 1⟩
  else
    let x := magnitude mantissa exponent
    let point := decimalPoint x
    match searchGrids (roundingInterval mantissa exponent) x point 17 1 with
    | some (n, places) => .ofGrid n places point
    | none => ⟨[], point⟩

end ShapeCheck.Double
