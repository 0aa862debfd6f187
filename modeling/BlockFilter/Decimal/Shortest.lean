import BlockFilter.Decimal.Positional

/-! The fewest decimal digits that identify a binary64 number. Every number has an interval of reals
that round to it. On the grids of one, two, … seventeen digits the two neighbours of the number are
tested for that interval; the first grid with a hit wins, and of two hits the nearer one. -/

namespace BlockFilter.Decimal

/-- How many decimal digits stand before the point of `num / den`: the least `k` with
`num / den < 10 ^ k`, negative where zeros follow the point. -/
def magnitude (num den : Nat) : Int :=
  if den ≤ num then ((Nat.toDigits 10 (num / den)).length : Int)
  else 1 - ((Nat.toDigits 10 ((den - 1) / num)).length : Int)

/-- The reals that round to a positive number, on a scale that makes all ends whole: the lower end,
the number itself, the upper end and the unit. The ends belong to the interval of an even
significand. -/
structure Neighbourhood where
  low : Nat
  value : Nat
  high : Nat
  unit : Nat
  closed : Bool

/-- Half a unit to each side, but a quarter below a power of two, where the spacing changes. -/
def neighbourhood (significand : Nat) (exponent : Int) : Neighbourhood :=
  let (scale, unit) := Binary64.ratio 1 (exponent - 2)
  let below := if significand = Binary64.hiddenBit ∧ Binary64.minExponent < exponent then 1 else 2
  { low := (4 * significand - below) * scale
    value := 4 * significand * scale
    high := (4 * significand + 2) * scale
    unit := unit
    closed := significand % 2 == 0 }

/-- Whether `num / den` rounds to the number. -/
def Neighbourhood.contains (n : Neighbourhood) (num den : Nat) : Bool :=
  if n.closed then n.low * den ≤ num * n.unit ∧ num * n.unit ≤ n.high * den
  else n.low * den < num * n.unit ∧ num * n.unit < n.high * den

/-- The hit on the grid of multiples of `10 ^ place`: the number of steps. Of two hits the nearer
wins, and the upper one in a tie. -/
def Neighbourhood.onGrid? (n : Neighbourhood) (place : Int) : Option Nat :=
  let up := Nat.pow 10 place.toNat
  let down := Nat.pow 10 (-place).toNat
  let lower := n.value * down / (n.unit * up)
  let hit (steps : Nat) := n.contains (steps * up) down
  let nearer := roundDiv .up (n.value * down) (n.unit * up)
  match hit lower, hit (lower + 1) with
  | true, true => some nearer
  | true, false => some lower
  | false, true => some (lower + 1)
  | false, false => none

/-- Digits `d` and a place `p` such that `d · 10 ^ p` is the shortest decimal that reads back as the
given positive number. -/
def shortestDigits (significand : Nat) (exponent : Int) : Nat × Int :=
  let n := neighbourhood significand exponent
  let whole := magnitude n.value n.unit
  let onGrid (length : Nat) : Option (Nat × Int) :=
    let place := whole - length
    (n.onGrid? place).map fun digits => (digits, place)
  ((List.range' 1 17).findSome? onGrid).getD (0, 0)

/-- Take off zeros behind the point, as far as there are places. -/
def dropZeros (digits : Nat) : Nat → Nat × Nat
  | 0 => (digits, 0)
  | places + 1 => if digits % 10 = 0 then dropZeros (digits / 10) places else (digits, places + 1)

/-- The shortest numeral that reads back as the number, in positional form. -/
def shortest : Binary64 → String :=
  signed fun significand exponent =>
    if significand = 0 then "0" else
    let (digits, place) := shortestDigits significand exponent
    if 0 ≤ place then pointed 0 (digits * Nat.pow 10 place.toNat)
    else
      let (digits, places) := dropZeros digits (-place).toNat
      pointed places digits

end BlockFilter.Decimal
