import GraphQuery.Decimal.Binary64

/-!
Reading a decimal: the binary number nearest to an exact quotient, a half going to the even
neighbour and whatever is too large going to infinity.
-/

namespace GraphQuery.Decimal

def roundHalfEven (numerator denominator : Nat) : Nat :=
  let quotient := numerator / denominator
  let twice := 2 * (numerator % denominator)
  if twice < denominator then quotient
  else if denominator < twice then quotient + 1
  else quotient + quotient % 2

/-- The greatest `e` with `2 ^ e` at most the quotient of two positive numbers. -/
def binaryExponent (numerator denominator : Nat) : Int :=
  let guess : Int := (numerator.log2 : Int) - (denominator.log2 : Int)
  if numerator * Nat.pow 2 (-guess).toNat < denominator * Nat.pow 2 guess.toNat then guess - 1
  else guess

/--
The bits of the magnitude nearest to a quotient. A rounded significand that reaches `2 ^ 53` carries
into the exponent by the sum alone.
-/
def nearestMagnitude (numerator denominator : Nat) : Nat :=
  if numerator = 0 then 0
  else
    let exponent := max (binaryExponent numerator denominator - 52) (-1074)
    let significand :=
      roundHalfEven (numerator * Nat.pow 2 (-exponent).toNat)
        (denominator * Nat.pow 2 exponent.toNat)
    min ((exponent + 1074).toNat * Nat.pow 2 52 + significand) (2047 * Nat.pow 2 52)

def digitValue (c : Char) : Nat :=
  c.toNat - '0'.toNat

def numeral (digits : List Char) : Nat :=
  digits.foldl (fun value digit => 10 * value + digitValue digit) 0

/-- Reads the digits before and after a decimal point. -/
def read (negative : Bool) (whole fraction : List Char) : Binary64 :=
  Binary64.ofMagnitude negative
    (nearestMagnitude (numeral (whole ++ fraction)) (Nat.pow 10 fraction.length))

end GraphQuery.Decimal
