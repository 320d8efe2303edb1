/-!
Binary floating-point numbers of 64 bits, held as their bits: a sign, an exponent of 11 bits and a
fraction of 52. Equality is numeric, so a NaN differs from itself and the two zeros are equal.
-/

namespace GraphQuery

structure Binary64 where
  bits : UInt64

namespace Binary64

def negative (x : Binary64) : Bool :=
  decide (Nat.pow 2 63 ≤ x.bits.toNat)

def biasedExponent (x : Binary64) : Nat :=
  x.bits.toNat / Nat.pow 2 52 % Nat.pow 2 11

def fraction (x : Binary64) : Nat :=
  x.bits.toNat % Nat.pow 2 52

def isNaN (x : Binary64) : Bool :=
  x.biasedExponent == 2047 && x.fraction != 0

def isInfinite (x : Binary64) : Bool :=
  x.biasedExponent == 2047 && x.fraction == 0

def isZero (x : Binary64) : Bool :=
  x.biasedExponent == 0 && x.fraction == 0

/-- The `m` of a finite magnitude `m * 2 ^ e`. -/
def significand (x : Binary64) : Nat :=
  if x.biasedExponent = 0 then x.fraction else Nat.pow 2 52 + x.fraction

/-- The `e` of a finite magnitude `m * 2 ^ e`. -/
def exponent (x : Binary64) : Int :=
  if x.biasedExponent = 0 then -1074 else (x.biasedExponent : Int) - 1075

protected def beq (x y : Binary64) : Bool :=
  !x.isNaN && !y.isNaN && (x.bits == y.bits || x.isZero && y.isZero)

instance : BEq Binary64 := ⟨Binary64.beq⟩

/-- A sign put before the bits of a magnitude. -/
def ofMagnitude (negative : Bool) (magnitude : Nat) : Binary64 :=
  ⟨UInt64.ofNat (if negative then Nat.pow 2 63 + magnitude else magnitude)⟩

end Binary64

end GraphQuery
