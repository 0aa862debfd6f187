import BlockFilter.Binary64.Exact

/-! Decimal numerals in positional form: digits, a point and no exponent. -/

namespace BlockFilter.Decimal

/-- The numeral of `digits / 10 ^ places`, with `places` digits after the point and at least one
before it. Without places there is no point. -/
def pointed (places digits : Nat) : String :=
  let shown := Nat.toDigits 10 digits
  let padded := List.replicate (places + 1 - shown.length) '0' ++ shown
  let whole := padded.length - places
  String.ofList
    (padded.take whole ++ if places = 0 then [] else '.' :: padded.drop whole)

/-- The text of a number whose finite magnitudes are written by `magnitude`. A finite zero keeps its
sign, and a NaN has none. -/
def signed (magnitude : Nat → Int → String) (x : Binary64) : String :=
  let sign (negative : Bool) := if negative then "-" else ""
  match x.view with
  | .nan => "NaN"
  | .infinite negative => sign negative ++ "inf"
  | .finite negative significand exponent => sign negative ++ magnitude significand exponent

end BlockFilter.Decimal
