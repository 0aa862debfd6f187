/-! The signed 64-bit integers as a range of the integers. Sums and differences that leave the range
stop at its ends. -/

namespace BlockFilter

/-- The least signed 64-bit integer. -/
def minInt64 : Int := -0x8000000000000000

/-- The largest signed 64-bit integer. -/
def maxInt64 : Int := 0x7FFFFFFFFFFFFFFF

/-- The nearest signed 64-bit integer. -/
def saturate (n : Int) : Int := max minInt64 (min n maxInt64)

/-- An integer of the range stays as it is. -/
theorem saturate_of_mem {n : Int} (hLow : minInt64 ≤ n) (hHigh : n ≤ maxInt64) :
    saturate n = n := by
  simp only [saturate, minInt64, maxInt64] at *
  omega

end BlockFilter
