import BlockFilter.Binary64.Exact

/-! The binary64 number nearest to a quotient of natural numbers. The significand and the exponent
are found in exact arithmetic, so the result is the correctly rounded one. -/

namespace BlockFilter.Binary64

/-- The exponent `k` with `2 ^ k ≤ num / den < 2 ^ (k + 1)`, for positive numbers. The lengths of
the two numbers leave only two candidates. -/
def binaryExponent (num den : Nat) : Int :=
  let guess : Int := num.log2 - den.log2
  let reached := if 0 ≤ guess then den <<< guess.toNat ≤ num else den ≤ num <<< (-guess).toNat
  if reached then guess else guess - 1

/-- A significand of at most 53 bits and an exponent for the number nearest to `num / den`, ties
going to the even significand. A significand that rounds up to `2 ^ 53` stands for the power of two
itself. -/
def nearest (num den : Nat) : Nat × Int :=
  if num = 0 then (0, minExponent) else
  let exponent := max minExponent (binaryExponent num den - 52)
  let significand :=
    if 0 ≤ exponent then roundDiv .toEven num (den <<< exponent.toNat)
    else roundDiv .toEven (num <<< (-exponent).toNat) den
  (significand, exponent)

/-- Numerator and denominator of the number nearest to `num / den`. -/
def nearestRatio (num den : Nat) : Nat × Nat :=
  let (significand, exponent) := nearest num den
  ratio significand exponent

/-- The bit that a negative number has. -/
def signBit : Nat := 0x8000000000000000

/-- The bit pattern of `significand · 2 ^ exponent`, infinite where the exponent is too large. The
leading bit of a normal significand carries into the exponent field. -/
def pack (negative : Bool) (significand : Nat) (exponent : Int) : Binary64 :=
  let fields := (exponent - minExponent).toNat * hiddenBit + significand
  ⟨UInt64.ofNat ((if negative then signBit else 0) + min fields (maxBiased * hiddenBit))⟩

/-- The number nearest to `num / den`, negated where `negative` is set. -/
def ofRatio (negative : Bool) (num den : Nat) : Binary64 :=
  let (significand, exponent) := nearest num den
  pack negative significand exponent

/-- The number nearest to a natural number. -/
def ofNat (n : Nat) : Binary64 := ofRatio false n 1

end BlockFilter.Binary64
