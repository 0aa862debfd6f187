import BlockFilter.Binary64.Basic
import BlockFilter.Rounding
import BlockFilter.Saturation

/-! Exact readings of a binary64 number: the rational number that a bit pattern stands for, and its
conversions to integers. Nothing here rounds twice. -/

namespace BlockFilter.Binary64

/-- What a bit pattern stands for. A finite number is `significand · 2 ^ exponent`, negated where
`negative` is set; the significand is below `2 ^ 53`. -/
inductive View where
  | nan
  | infinite (negative : Bool)
  | finite (negative : Bool) (significand : Nat) (exponent : Int)
  deriving DecidableEq, Repr

/-- The smallest exponent of the format. -/
def minExponent : Int := -1074

/-- The bit above the 52 bits of the fraction, which every normal significand has and none stores. -/
def hiddenBit : Nat := 0x10000000000000

/-- The exponent field of the infinities and of every NaN. -/
def maxBiased : Nat := 2047

/-- Split a bit pattern into sign, exponent and significand. -/
def view (x : Binary64) : View :=
  let negative := x.bits.toNat.testBit 63
  let biased := x.bits.toNat / hiddenBit % (maxBiased + 1)
  let fraction := x.bits.toNat % hiddenBit
  if biased = maxBiased then (if fraction = 0 then .infinite negative else .nan)
  else if biased = 0 then .finite negative fraction minExponent
  else .finite negative (fraction + hiddenBit) (minExponent + (biased - 1 : Nat))

/-- Numerator and denominator of `significand · 2 ^ exponent`. -/
def ratio (significand : Nat) (exponent : Int) : Nat × Nat :=
  if 0 ≤ exponent then (significand <<< exponent.toNat, 1)
  else (significand, 1 <<< (-exponent).toNat)

/-- The signed 64-bit integer nearest to a number, halves going away from zero. Numbers outside the
range give its nearest end, and a NaN gives zero. -/
def nearestInteger (x : Binary64) : Int :=
  match x.view with
  | .nan => 0
  | .infinite true => minInt64
  | .infinite false => maxInt64
  | .finite negative significand exponent =>
      let (num, den) := ratio significand exponent
      let magnitude : Int := roundDiv .up num den
      saturate (if negative then -magnitude else magnitude)

/-- The least natural number not below a number, or `none` where no finite number is given. -/
def ceilNat? (x : Binary64) : Option Nat :=
  match x.view with
  | .finite true _ _ => some 0
  | .finite false significand exponent =>
      let (num, den) := ratio significand exponent
      some (ceilDiv num den)
  | _ => none

end BlockFilter.Binary64
