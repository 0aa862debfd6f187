import BlockFilter.Proofs.ScanRange

/-! How far the stored error bounds of a line reach. They are cuts of the exact bounds, so one of
them falls short of a sample only where it is the last 32-bit integer on its side. Then the edge of
the table may still stand in for it. -/

namespace BlockFilter.FittedLine

variable {line : FittedLine} {samples : List (UInt32 × UInt32)} {input block : UInt32}

/-! ## Bounds that fall short -/

/-- The bounds of a model hold an error as far as 32 bits go: a bound that falls short of it is the
last 32-bit integer on its side. -/
structure Bounds (model : FittedLine) (error : Int) : Prop where
  below : error < model.minError.toInt → model.minError = Int32.minValue
  above : model.maxError.toInt < error → model.maxError = Int32.maxValue

/-- A lower bound falls short exactly of the errors below all 32-bit integers. -/
theorem Bounds.short_below_iff {model : FittedLine} {error : Int} (h : model.Bounds error) :
    model.minError = Int32.minValue ∧ error < model.minError.toInt ↔ error < -2 ^ 31 := by
  have hLeast := model.minError.le_toInt
  have hBelow := h.below
  rw [← Int32.toInt_inj, Int32.toInt_minValue] at hBelow ⊢
  omega

theorem Bounds.short_above_iff {model : FittedLine} {error : Int} (h : model.Bounds error) :
    model.maxError = Int32.maxValue ∧ model.maxError.toInt < error ↔ 2 ^ 31 - 1 < error := by
  have hGreatest := model.maxError.toInt_lt
  have hAbove := h.above
  rw [← Int32.toInt_inj, Int32.toInt_maxValue] at hAbove ⊢
  omega

theorem reaches_iff (model : FittedLine) (input block : UInt32) :
    model.Reaches input block ↔
      (-2 ^ 31 ≤ model.offset input block ∨ block = model.lastBlock) ∧
        (model.offset input block ≤ 2 ^ 31 - 1 ∨ block = 0) := by
  constructor
  · intro h
    obtain ⟨hBelow, hAbove⟩ := h
    rw [Int32.toInt_minValue] at hBelow
    rw [Int32.toInt_maxValue] at hAbove
    exact ⟨hBelow, hAbove⟩
  · intro h
    obtain ⟨hBelow, hAbove⟩ := h
    rw [← Int32.toInt_minValue] at hBelow
    rw [← Int32.toInt_maxValue] at hAbove
    exact ⟨hBelow, hAbove⟩

theorem bounds_boundErrors (h : (input, block) ∈ samples) :
    let model := line.boundErrors samples
    model.Bounds (model.offset input block) := by
  intro model
  have hOffset : model.offset input block = line.offset input block := rfl
  obtain ⟨lowest, highest, hLow, hHigh, hMin, hMax⟩ := line.exists_bounds_of_mem h
  have hOrder : Int32.minValue.toInt ≤ Int32.maxValue.toInt := by decide
  rw [hOffset]
  refine ⟨?_, ?_⟩
  · rw [hMin, ← Int32.toInt_inj, toInt_ofIntClamp]
    omega
  · rw [hMax, ← Int32.toInt_inj, toInt_ofIntClamp]
    omega

theorem bounds_train {inputs blocks : List UInt32} {totalBlocks i : Nat}
    (hInput : inputs[i]? = some input) (hBlock : blocks[i]? = some block) :
    let model := train inputs blocks totalBlocks
    model.Bounds (model.offset input block) := by
  rcases train_cases hInput hBlock with hOne | ⟨line, samples, hLine, hMem, _, _⟩
  · rw [hOne]
    intro model
    have hOffset : model.offset input block = 0 := offset_ofOneKey input block _
    have hMin : model.minError.toInt ≤ 0 := (by decide : (-1 : Int32).toInt ≤ 0)
    have hMax : 0 ≤ model.maxError.toInt := (by decide : 0 ≤ (1 : Int32).toInt)
    rw [hOffset]
    exact ⟨fun hShort => absurd hMin (Int.not_le.mpr hShort),
      fun hShort => absurd hMax (Int.not_le.mpr hShort)⟩
  · rw [hLine]
    exact bounds_boundErrors hMem

/-! ## Samples that are missed -/

/-- The range around a trained input holds its block exactly where the error is a 32-bit integer or
the table ends with the block on that side. So a block is missed exactly where a stored bound is the
last 32-bit integer, falls short of the error, and no edge of the table stands in for it. This asks
nothing of the line that was fitted, nor of the integer that it gives for the input. -/
theorem covers_iff_of_train {inputs blocks : List UInt32} {totalBlocks i : Nat}
    (hInput : inputs[i]? = some input) (hBlock : blocks[i]? = some block)
    (hTable : block.toNat < totalBlocks) :
    let model := train inputs blocks totalBlocks
    let range := model.predict input
    let error : Int := block.toNat - model.nearestBlock input
    (range.minBlock ≤ block ∧ block ≤ range.maxBlock ↔
        -2 ^ 31 ≤ error ∧ error ≤ 2 ^ 31 - 1 ∨
          error < -2 ^ 31 ∧ block = model.lastBlock ∨ 2 ^ 31 - 1 < error ∧ block = 0) ∧
      (¬(range.minBlock ≤ block ∧ block ≤ range.maxBlock) ↔
        model.minError = Int32.minValue ∧ error < model.minError.toInt ∧ block ≠ model.lastBlock ∨
          model.maxError = Int32.maxValue ∧ model.maxError.toInt < error ∧ block ≠ 0) := by
  intro model range error
  have hCovers : range.minBlock ≤ block ∧ block ≤ range.maxBlock ↔ model.Reaches input block :=
    predict_train_iff hInput hBlock hTable
  have hReaches : model.Reaches input block ↔
      (-2 ^ 31 ≤ error ∨ block = model.lastBlock) ∧ (error ≤ 2 ^ 31 - 1 ∨ block = 0) :=
    model.reaches_iff input block
  have hBounds : model.Bounds error := bounds_train hInput hBlock
  rw [hCovers, hReaches, ← and_assoc, hBounds.short_below_iff, ← and_assoc, hBounds.short_above_iff]
  clear_value error model
  constructor
  · grind
  · grind

/-- Two keys in the first block and one of the same hash in the last of `2 ^ 32` blocks. The line
runs through the mean block, and the last block is missed. -/
theorem covers_iff_of_train_far :
    let model := train [0, 0, 0] [0, 0, 0xFFFFFFFF] UInt32.size
    let range := model.predict 0
    let error : Int := (0xFFFFFFFF : UInt32).toNat - model.nearestBlock 0
    error = 2863311530 ∧ ¬(range.minBlock ≤ 0xFFFFFFFF ∧ 0xFFFFFFFF ≤ range.maxBlock) ∧
      (range.minBlock ≤ 0xFFFFFFFF ∧ 0xFFFFFFFF ≤ range.maxBlock ↔
        -2 ^ 31 ≤ error ∧ error ≤ 2 ^ 31 - 1 ∨
          error < -2 ^ 31 ∧ 0xFFFFFFFF = model.lastBlock ∨
            2 ^ 31 - 1 < error ∧ (0xFFFFFFFF : UInt32) = 0) := by
  intro model range error
  have hModel : model =
      ⟨.zero, ⟨0x41d5555555400000⟩, -1431655766, 2147483647, 0xFFFFFFFF, 3⟩ := by
    decide +kernel
  have hError : error = 2863311530 := by
    simp only [error, hModel]
    decide +kernel
  have hInput : ([0, 0, 0] : List UInt32)[2]? = some 0 := rfl
  have hBlock : ([0, 0, 0xFFFFFFFF] : List UInt32)[2]? = some 0xFFFFFFFF := rfl
  have hTable : (0xFFFFFFFF : UInt32).toNat < UInt32.size := by decide
  obtain ⟨hCovers, _⟩ := covers_iff_of_train hInput hBlock hTable
  refine ⟨hError, ?_, hCovers⟩
  simp only [range, hModel]
  decide +kernel

end BlockFilter.FittedLine
