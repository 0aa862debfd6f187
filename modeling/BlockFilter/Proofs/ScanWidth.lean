import BlockFilter.Proofs.SafeAnswers

/-! The number of blocks that are scanned. Sums that stop at the ends of their range and positions that
are cut to the table only bring blocks closer together, so the range around a line is never wider than
its error bounds are apart. The figure that a filter of some keys reports is therefore a bound on every
scan, whatever its line gives, and the exact length where there is no line. -/

namespace BlockFilter

/-- Saturation keeps the order of integers and brings them closer together. -/
theorem saturate_sub_saturate_le (low high : Int) :
    saturate high - saturate low ≤ max 0 (high - low) := by
  simp only [saturate, minInt64, maxInt64]
  omega

/-- A word lies above its minimum with another word exactly as far as above that word, or not at all. -/
theorem toNat_sub_toNat_min (first last : UInt32) :
    (last.toNat : Int) - (min first last).toNat = max 0 ((last.toNat : Int) - first.toNat) := by
  change (last.toNat : Int) - (if first ≤ last then first else last).toNat = _
  simp only [UInt32.le_iff_toNat_le]
  split <;> omega

/-- The blocks of a prediction are in order, and the last one is at most so many blocks past the
first. -/
structure Prediction.Spreads (prediction : Prediction) (width : UInt32) : Prop where
  ordered : prediction.minBlock ≤ prediction.maxBlock
  width_le : prediction.maxBlock - prediction.minBlock ≤ width

namespace FittedLine

/-- The cut to the table brings positions closer together as well. -/
theorem clampBlock_sub_clampBlock_le (model : FittedLine) (low high : Int) :
    ((model.clampBlock high).toNat : Int) - (model.clampBlock low).toNat ≤
      max 0 (high - low) := by
  rw [toNat_clampBlock, toNat_clampBlock]
  omega

/-- The range around any position is at most as wide as the error bounds are apart. Bounds that are the
wrong way round leave one block. -/
theorem width_around_le (model : FittedLine) (position : Int) :
    ((model.around position).maxBlock.toNat : Int) - (model.around position).minBlock.toNat ≤
      model.errorRange.toNat := by
  let low := position + model.minError.toInt
  let high := position + model.maxError.toInt
  have hSaturate := saturate_sub_saturate_le low high
  have hCut := model.clampBlock_sub_clampBlock_le (saturate low) (saturate high)
  calc ((model.around position).maxBlock.toNat : Int) - (model.around position).minBlock.toNat
      = max 0 ((model.clampBlock (saturate high)).toNat -
          (model.clampBlock (saturate low)).toNat : Int) := toNat_sub_toNat_min ..
    _ ≤ max 0 (saturate high - saturate low) := by omega
    _ ≤ max 0 (high - low) := by omega
    _ = max 0 (model.maxError.toInt - model.minError.toInt) := by omega
    _ = model.errorRange.toNat := model.toNat_errorRange.symm

/-- Neither the position nor the order of the error bounds matters. -/
theorem around_spreads (model : FittedLine) (position : Int) :
    (model.around position).Spreads model.errorRange := by
  have hOrder := (model.around_inTable position).ordered
  have hWidth := model.width_around_le position
  refine ⟨hOrder, ?_⟩
  rw [UInt32.le_iff_toNat_le, UInt32.toNat_sub_of_le _ _ hOrder]
  omega

theorem predict_spreads {model : FittedLine} (hKeys : model.keyCount ≠ 0) (input : UInt32) :
    (model.predict input).Spreads model.errorRange := by
  rw [predict_eq_around hKeys]
  exact model.around_spreads _

end FittedLine

theorem Prediction.Spreads.scanLength_le {prediction : Prediction} {width : UInt32}
    (h : prediction.Spreads width) :
    (Lookup.present prediction.minBlock prediction.maxBlock).scanLength ≤ width.toNat + 1 := by
  have hWidth := UInt32.le_iff_toNat_le.mp h.width_le
  rw [UInt32.toNat_sub_of_le _ _ h.ordered] at hWidth
  exact Nat.succ_le_succ hWidth

namespace TableFilter

/-- The whole table has one block more than its last ordinal says. -/
theorem scanLength_wholeTable (filter : TableFilter) (hash : KeyHash) :
    (filter.wholeTable hash).scanLength =
      if filter.mayContain hash then filter.lastBlock.toNat + 1 else 0 := by
  rw [wholeTable]
  split <;> rfl

/-- A variant without a line reports the last ordinal. -/
theorem errorRange_eq_lastBlock {filter : TableFilter} (hKind : filter.kind ≠ .hybrid) :
    filter.stats.errorRange = filter.lastBlock := by
  cases filter with
  | bloom bits lastBlock keyCount => rfl
  | hybrid index input => exact absurd rfl hKind
  | bounds span => rfl

theorem lookupAt_eq_wholeTable {filter : TableFilter} (hKind : filter.kind ≠ .hybrid)
    (hash : KeyHash) (input : UInt32) : filter.lookupAt hash input = filter.wholeTable hash := by
  cases filter with
  | bloom bits lastBlock keyCount => rfl
  | hybrid index input => exact absurd rfl hKind
  | bounds span => rfl

theorem scanLength_lookupAt_of_kind {filter : TableFilter} (hKind : filter.kind ≠ .hybrid)
    (hash : KeyHash) (input : UInt32) : (filter.lookupAt hash input).scanLength =
      if filter.mayContain hash then filter.stats.errorRange.toNat + 1 else 0 := by
  rw [lookupAt_eq_wholeTable hKind, scanLength_wholeTable, errorRange_eq_lastBlock hKind]

/-- What a lookup in a learned index of some keys names, wherever its line runs. -/
theorem scanLength_lookupAt_hybrid_le {index : LearnedIndex} (hKeys : index.keyCount ≠ 0)
    (positionInput : PositionInput) (hash : KeyHash) (input : UInt32) :
    ((hybrid index positionInput).lookupAt hash input).scanLength ≤
      index.model.errorRange.toNat + 1 := by
  rw [lookupAt, LearnedIndex.lookupAt]
  split
  · exact (FittedLine.predict_spreads hKeys input).scanLength_le
  · exact Nat.zero_le _

/-- A filter of some keys never asks for more blocks to be scanned than its figures say, whatever it
holds and whatever the position model is given. A variant without a model asks for exactly so many
wherever it asks for any. The figure of a model of some keys is a bound on the width of every range that
it predicts, also for a line that gives any position at all. -/
theorem scanLength_le_errorRange {filter : TableFilter} (hKeys : filter.keyCount ≠ 0) :
    (∀ hash input,
        (filter.lookupAt hash input).scanLength ≤ filter.stats.errorRange.toNat + 1) ∧
      (filter.kind ≠ .hybrid → ∀ hash input, (filter.lookupAt hash input).isPresent = true →
        (filter.lookupAt hash input).scanLength = filter.stats.errorRange.toNat + 1) ∧
      ∀ model : FittedLine, model.keyCount ≠ 0 →
        (∀ input, (model.predict input).Spreads model.errorRange) ∧
          ∀ position, (model.around position).Spreads model.errorRange := by
  refine ⟨?_, ?_, ?_⟩
  · intro hash input
    by_cases hKind : filter.kind = .hybrid
    · cases filter with
      | bloom bits lastBlock keyCount => cases hKind
      | hybrid index positionInput => exact scanLength_lookupAt_hybrid_le hKeys ..
      | bounds span => cases hKind
    · rw [scanLength_lookupAt_of_kind hKind]
      split
      · exact Nat.le_refl _
      · exact Nat.zero_le _
  · intro hKind hash input hPresent
    rw [isPresent_lookupAt] at hPresent
    rw [scanLength_lookupAt_of_kind hKind, if_pos hPresent]
  · intro model hModel
    exact ⟨FittedLine.predict_spreads hModel, model.around_spreads⟩

/-- The widest error bounds around the middle of the largest table name every block of it, as many as the
figure says. -/
theorem scanLength_le_errorRange_widest :
    let line : FittedLine :=
      ⟨.zero, ⟨0x41e0000000000000⟩, -2147483648, 2147483647, 0xFFFFFFFF, 1⟩
    let filter : TableFilter := .hybrid ⟨⟨#[255], 1⟩, line⟩ .ordinal
    filter.keyCount ≠ 0 ∧ filter.lookupAt 3 5 = .present 0 0xFFFFFFFF ∧
      (filter.lookupAt 3 5).scanLength = 2 ^ 32 ∧
      (filter.lookupAt 3 5).scanLength ≤ filter.stats.errorRange.toNat + 1 ∧
      (line.predict 5).Spreads line.errorRange := by
  intro line filter
  have hKeys : filter.keyCount ≠ 0 := by decide
  have hWhole : filter.lookupAt 3 5 = .present 0 0xFFFFFFFF := by decide +kernel
  obtain ⟨hScan, _, hModel⟩ := scanLength_le_errorRange hKeys
  refine ⟨hKeys, hWhole, ?_, hScan 3 5, (hModel line hKeys).1 5⟩
  rw [hWhole]
  rfl

/-- A filter of no keys names the whole table, whatever its error bounds are. -/
example :
    let filter : TableFilter := .hybrid ⟨.empty, ⟨.zero, .zero, 0, 0, 9, 0⟩⟩ .keyHash
    (filter.lookupAt 3 5).scanLength = 10 ∧ filter.stats.errorRange = 0 := by
  decide

end TableFilter

end BlockFilter
