import ShapeCheck.Number.Shortest

/-! Number literals: integers of any size and doubles, compared by exact value. -/

namespace ShapeCheck

inductive Number where
  | int (value : Int)
  | double (value : Double)
deriving DecidableEq, Repr

/-- What a number stands for, free of its notation. -/
inductive Quantity where
  | finite (value : Rat)
  | infinite (negative : Bool)
deriving DecidableEq

namespace Number

def quantity : Number → Quantity
  | .int n => .finite n
  | .double (.finite negative m e) =>
    .finite (if negative then -Double.magnitude m e else Double.magnitude m e)
  | .double (.infinite negative) => .infinite negative

/-- Numbers are equal when they stand for the same quantity. -/
def same (a b : Number) : Bool := a.quantity = b.quantity

/-- At least two digits, with the sign in front. -/
def exponentText (e : Int) : String :=
  let digits := toString e.natAbs
  (if e < 0 then "-" else "+") ++ (if digits.length < 2 then "0" ++ digits else digits)

/-- Positional notation for exponents from -4 to 15, otherwise one digit before the point and an
exponent. -/
def decimalText (d : Double.Decimal) : String :=
  let ds := d.digits
  let zeros (n : Int) := List.replicate n.toNat '0'
  let exponent := d.point - 1
  if -4 ≤ exponent && exponent < 16 then
    if d.point ≤ 0 then String.ofList ('0' :: '.' :: zeros (-d.point) ++ ds)
    else if ds.length ≤ d.point then
      String.ofList (ds ++ zeros (d.point - ds.length) ++ ['.', '0'])
    else String.ofList (ds.take d.point.toNat ++ '.' :: ds.drop d.point.toNat)
  else
    let head := match ds with
      | [] => []
      | [c] => [c]
      | c :: cs => c :: '.' :: cs
    String.ofList head ++ "e" ++ exponentText exponent

def signText (negative : Bool) : String := if negative then "-" else ""

/-- The fewest digits that read back as the same number. An integer is written out however long it
is: a limit on the digits that an integer may have as a text, such as a runtime may set, is left
out. -/
def text : Number → String
  | .int n => toString n
  | .double (.finite negative m e) => signText negative ++ decimalText (Double.shortest m e)
  | .double (.infinite negative) => signText negative ++ "inf"

end Number
end ShapeCheck
