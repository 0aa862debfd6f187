/-! Numerals of the messages and reports, and texts as a log shows them. -/

namespace BlockFilter.Text

/-- A number in lower-case hexadecimal digits, filled up with zeros to a width. -/
def hexDigits (width number : Nat) : String :=
  let digits := Nat.toDigits 16 number
  String.ofList (List.replicate (width - digits.length) '0' ++ digits)

/-- A 32-bit word as `0x` and eight lower-case hexadecimal digits. -/
def hexWord (word : UInt32) : String := "0x" ++ hexDigits 8 word.toNat

/-- A byte string as a bracketed list of decimal numbers. -/
def byteList (bytes : List UInt8) : String :=
  "[" ++ ", ".intercalate (bytes.map fun byte => toString byte.toNat) ++ "]"

/-- The ASCII controls that can act on a terminal beyond the layout of its lines: bell, backspace, form
feed, escape and delete. -/
def terminalControls : List Nat := [0x07, 0x08, 0x0C, 0x1B, 0x7F]

/-- A character as a log shows it. A control that can act on a terminal is spelled out by its code, and
so are the controls from 0x80 to 0x9F, which repeat such controls outside ASCII. -/
def showChar (character : Char) : String :=
  let code := character.toNat
  if code ∈ terminalControls then "\\x" ++ hexDigits 2 code
  else if 0x80 ≤ code ∧ code ≤ 0x9F then "\\u\x7b" ++ hexDigits 1 code ++ "\x7d"
  else character.toString

/-- A text as a log shows it. A text shown this way cannot act on a terminal. -/
def showControls (text : String) : String := String.join (text.toList.map showChar)

end BlockFilter.Text
