import BlockFilter.Binary64.Nearest

/-! Reading a binary64 number from text. A numeral is an optional sign, digits with an optional point,
and an optional exponent; the words `inf`, `infinity` and `nan` are read in either case. -/

namespace BlockFilter.Decimal

/-- A sign and the text after it; no sign is a plus. -/
def splitSign : List Char → Bool × List Char
  | '-' :: rest => (true, rest)
  | '+' :: rest => (false, rest)
  | text => (false, text)

/-- The value of a list of decimal digits. -/
def digitsValue (digits : List Char) : Nat :=
  digits.foldl (fun value digit => 10 * value + (digit.toNat - '0'.toNat)) 0

/-- A number written by decimal digits alone, at least one. -/
def natural? (text : List Char) : Option Nat :=
  if text.isEmpty ∨ !text.all Char.isDigit then none else some (digitsValue text)

/-- The exponent after a numeral's digits: nothing, or a letter `e` and a signed integer. -/
def exponent? : List Char → Option Int
  | [] => some 0
  | letter :: rest =>
      if letter = 'e' ∨ letter = 'E' then
        let (negative, digits) := splitSign rest
        (natural? digits).map fun n => if negative then -n else n
      else none

/-- Digits `d` and a place `p` for the numeral of `d · 10 ^ p`. -/
def numeral? (text : List Char) : Option (List Char × Int) :=
  let whole := text.takeWhile Char.isDigit
  let rest := text.dropWhile Char.isDigit
  let (fraction, rest) := match rest with
    | '.' :: rest => (rest.takeWhile Char.isDigit, rest.dropWhile Char.isDigit)
    | rest => ([], rest)
  if (whole ++ fraction).isEmpty then none
  else (exponent? rest).map fun exponent => (whole ++ fraction, exponent - fraction.length)

/-- The number nearest to `d · 10 ^ p`. Beyond `10 ^ 310` all numbers are infinite, below
`10 ^ (-330)` all are zero, so the power that is computed stays small. -/
def ofDecimal (negative : Bool) (digits : Nat) (place : Int) : Binary64 :=
  let size := (Nat.toDigits 10 digits).length + place
  if digits = 0 ∨ size < -330 then Binary64.pack negative 0 Binary64.minExponent
  else if 310 < size then Binary64.pack negative 0 (Binary64.minExponent + 2047)
  else Binary64.ofRatio negative (digits * Nat.pow 10 place.toNat) (Nat.pow 10 (-place).toNat)

/-- The number that a text stands for. -/
def read? (text : String) : Option Binary64 :=
  let (negative, body) := splitSign text.toList
  let word := String.ofList (body.map Char.toLower)
  if word = "nan" then some ⟨0x7ff8000000000000⟩
  else if word = "inf" ∨ word = "infinity" then
    some (Binary64.pack negative 0 (Binary64.minExponent + 2047))
  else (numeral? body).map fun (digits, place) => ofDecimal negative (digitsValue digits) place

end BlockFilter.Decimal
