/-! Numbers in the binary64 format. A number is kept as its bit pattern, because stored numbers keep
the payload and the sign of a NaN. Arithmetic rounds to nearest, ties to even, as the format lays
down. -/

namespace BlockFilter

/-- A binary64 number, told from others by its bit pattern. -/
structure Binary64 where
  bits : UInt64
  deriving DecidableEq, Repr, Inhabited

namespace Binary64

def ofFloat (x : Float) : Binary64 := ⟨x.toBits⟩

def toFloat (x : Binary64) : Float := Float.ofBits x.bits

def zero : Binary64 := ⟨0⟩

def one : Binary64 := ⟨0x3ff0000000000000⟩

/-- The number nearest to the natural logarithm of two. -/
def ln2 : Binary64 := ⟨0x3fe62e42fefa39ef⟩

/-- Every 32-bit word is a binary64 number. -/
def ofUInt32 (n : UInt32) : Binary64 := ofFloat n.toFloat

instance : Add Binary64 := ⟨fun x y => ofFloat (x.toFloat + y.toFloat)⟩

instance : Sub Binary64 := ⟨fun x y => ofFloat (x.toFloat - y.toFloat)⟩

instance : Mul Binary64 := ⟨fun x y => ofFloat (x.toFloat * y.toFloat)⟩

instance : Div Binary64 := ⟨fun x y => ofFloat (x.toFloat / y.toFloat)⟩

instance : Neg Binary64 := ⟨fun x => ofFloat (-x.toFloat)⟩

def abs (x : Binary64) : Binary64 := ofFloat x.toFloat.abs

def exp (x : Binary64) : Binary64 := ofFloat x.toFloat.exp

/-- The natural logarithm. -/
def log (x : Binary64) : Binary64 := ofFloat x.toFloat.log

def pow (x y : Binary64) : Binary64 := ofFloat (x.toFloat.pow y.toFloat)

/-- The order of values. Nothing lies above or below a NaN. -/
def lt (x y : Binary64) : Bool := decide (x.toFloat < y.toFloat)

/-- Equality of values: the two zeros agree, and a NaN does not agree even with itself. -/
def sameValue (x y : Binary64) : Bool := x.toFloat == y.toFloat

/-- The sum of a list, taken from the left. -/
def sum (xs : List Binary64) : Binary64 := xs.foldl (· + ·) zero

end Binary64

end BlockFilter
