import GraphQuery.Decimal.Shortest

/-!
How a number is written: positionally, always with a point, from `0.0001` to below
`10000000000000000`, and with an exponent outside that range.
-/

namespace GraphQuery

namespace Decimal

def integerText (n : Int) : List Char :=
  if n < 0 then '-' :: Nat.toDigits 10 n.natAbs else Nat.toDigits 10 n.natAbs

/-- The greatest exponents of ten that are too small and still small enough for positional text. -/
structure Range where
  above : Int
  upTo : Int

def positionalRange : Range := ⟨-4, 16⟩

def positional (number : Digits) : List Char :=
  if number.point ≤ 0 then
    ['0', '.'] ++ List.replicate (-number.point).toNat '0' ++ number.digits
  else
    let whole := number.point.toNat
    if number.digits.length ≤ whole then
      number.digits ++ List.replicate (whole - number.digits.length) '0' ++ ['.', '0']
    else number.digits.take whole ++ ['.'] ++ number.digits.drop whole

def scientific (number : Digits) : List Char :=
  let mantissa := match number.digits with
    | [] => []
    | [digit] => [digit]
    | digit :: rest => digit :: '.' :: rest
  mantissa ++ ['e'] ++ integerText (number.point - 1)

def Digits.text (number : Digits) : List Char :=
  if positionalRange.above < number.point ∧ number.point ≤ positionalRange.upTo then
    positional number
  else scientific number

end Decimal

def Binary64.text (x : Binary64) : List Char :=
  if x.isNaN then "NaN".toList
  else
    let magnitude :=
      if x.isInfinite then "inf".toList
      else if x.isZero then "0.0".toList
      else (Decimal.shortest x).text
    if x.negative then '-' :: magnitude else magnitude

end GraphQuery
