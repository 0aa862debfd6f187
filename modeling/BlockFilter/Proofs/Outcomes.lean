import Mathlib.Control.Monad.Basic

/-! Steps that may fail. A sequence of steps succeeds exactly when every step does, and rewording
the errors of a step changes none of its results. -/

namespace BlockFilter

variable {ε ε' α β : Type}

theorem bind_eq_ok_iff {step : Except ε α} {next : α → Except ε β} {result : β} :
    (step >>= next) = .ok result ↔ ∃ value, step = .ok value ∧ next value = .ok result := by
  cases step with
  | error error => exact ⟨nofun, nofun⟩
  | ok value =>
      constructor
      · intro h
        exact ⟨value, rfl, h⟩
      · intro h
        obtain ⟨_, hStep, hNext⟩ := h
        cases hStep
        exact hNext

@[simp] theorem mapError_eq_ok_iff {step : Except ε α} {reword : ε → ε'} {value : α} :
    step.mapError reword = .ok value ↔ step = .ok value := by
  cases step with
  | error error => exact ⟨nofun, nofun⟩
  | ok _ => exact ⟨fun h => congrArg Except.ok (Except.ok.inj h), fun h => h ▸ rfl⟩

@[simp] theorem map_eq_ok_iff {step : Except ε α} {f : α → β} {result : β} :
    step.map f = .ok result ↔ ∃ value, step = .ok value ∧ f value = result := by
  cases step with
  | error error => exact ⟨nofun, nofun⟩
  | ok value =>
      constructor
      · intro h
        exact ⟨value, rfl, Except.ok.inj h⟩
      · intro h
        obtain ⟨_, hStep, hResult⟩ := h
        cases hStep
        exact congrArg Except.ok hResult

end BlockFilter
