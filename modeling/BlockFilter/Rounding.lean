/-! Rounded division of natural numbers. -/

namespace BlockFilter

/-- Where a quotient goes that lies halfway between two integers. -/
inductive Tie where
  | toEven
  | up
  deriving DecidableEq, Repr

/-- The integer nearest to `num / den`. -/
def roundDiv (tie : Tie) (num den : Nat) : Nat :=
  let floor := num / den
  let twice := 2 * (num % den)
  if twice < den then floor
  else if den < twice then floor + 1
  else match tie with
    | .toEven => floor + floor % 2
    | .up => floor + 1

/-- The least integer that is not below `num / den`. -/
def ceilDiv (num den : Nat) : Nat := (num + den - 1) / den

/-- The remainder decides between the two integers around a quotient. A tie may go to either. -/
theorem roundDiv_cases (tie : Tie) (num den : Nat) :
    (roundDiv tie num den = num / den ∧ 2 * (num % den) ≤ den) ∨
      (roundDiv tie num den = num / den + 1 ∧ den ≤ 2 * (num % den)) := by
  unfold roundDiv
  cases tie <;> dsimp only <;> split <;> try split
  all_goals omega

end BlockFilter
