import BlockFilter.Decimal.Positional

/-! Numerals with a fixed number of decimal places. -/

namespace BlockFilter.Decimal

/-- The exact value rounded to `places` decimals, a tie going to the even neighbour. A number that
rounds to zero keeps its sign. -/
def fixed (places : Nat) : Binary64 → String :=
  signed fun significand exponent =>
    let (num, den) := Binary64.ratio significand exponent
    pointed places (roundDiv .toEven (num * Nat.pow 10 places) den)

/-- A share in hundredths, with two decimals. -/
def percent (share : Binary64) : String := fixed 2 (share * Binary64.ofUInt32 100)

end BlockFilter.Decimal
