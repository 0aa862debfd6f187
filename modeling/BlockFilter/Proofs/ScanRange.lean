import BlockFilter.Proofs.ExactWords
import BlockFilter.Proofs.NoFalseNegatives

/-! The blocks that are scanned for a trained key. The errors of a fitted line are bounded over all
of its samples, so the range around the line holds every sample whose error is a 32-bit integer.
Beyond that the stored bounds are cut down, and the range holds a sample only where the edge of the
table stands in for the bound. -/

namespace BlockFilter

/-! ## Cutting down -/

theorem toInt_ofIntClamp (n : Int) :
    (Int32.ofIntClamp n).toInt = max Int32.minValue.toInt (min n Int32.maxValue.toInt) := by
  have hOrder : Int32.minValue.toInt ≤ Int32.maxValue.toInt := by decide
  unfold Int32.ofIntClamp
  split
  · split
    · rw [Int32.toInt_ofIntLE]
      omega
    · omega
  · omega

theorem saturate_min (m n : Int) : saturate (min m n) = min (saturate m) (saturate n) := by
  simp only [saturate, minInt64, maxInt64]
  omega

theorem saturate_max (m n : Int) : saturate (max m n) = max (saturate m) (saturate n) := by
  simp only [saturate, minInt64, maxInt64]
  omega

/-- The 64-bit range reaches past the 32-bit range by more than a step, so the cut at the end is the
only one that shows. -/
theorem ofIntClamp_saturate {step : Int} (hStep : step = -1 ∨ step = 1) (n : Int) :
    Int32.ofIntClamp (saturate (saturate n + step)) = Int32.ofIntClamp (n + step) := by
  rw [← Int32.toInt_inj, toInt_ofIntClamp, toInt_ofIntClamp, Int32.toInt_minValue,
    Int32.toInt_maxValue]
  simp only [saturate, minInt64, maxInt64]
  omega

namespace FittedLine

variable {model line : FittedLine} {samples : List (UInt32 × UInt32)} {input block : UInt32}
  {lowest highest : Int}

theorem toNat_clampBlock (model : FittedLine) (position : Int) :
    ((model.clampBlock position).toNat : Int) = max 0 (min position model.lastBlock.toNat) := by
  have hWord := model.lastBlock.toNat_lt_size
  rw [clampBlock, UInt32.toNat_ofNat_of_lt']
  · omega
  · omega

/-- A position of 64 bits is below a block of the table where its nearest block is. -/
theorem clampBlock_le_iff (h : block ≤ model.lastBlock) (position : Int) :
    model.clampBlock (saturate position) ≤ block ↔
      position ≤ block.toNat ∨ block = model.lastBlock := by
  have hWord := block.toNat_lt_size
  rw [UInt32.le_iff_toNat_le] at h ⊢
  rw [← Int.ofNat_le, toNat_clampBlock, ← UInt32.toNat_inj]
  simp only [saturate, minInt64, maxInt64, UInt32.size] at *
  omega

theorem le_clampBlock_iff (h : block ≤ model.lastBlock) (position : Int) :
    block ≤ model.clampBlock (saturate position) ↔ (block.toNat : Int) ≤ position ∨ block = 0 := by
  have hWord := block.toNat_lt_size
  rw [UInt32.le_iff_toNat_le] at h ⊢
  rw [← Int.ofNat_le, toNat_clampBlock, ← UInt32.toNat_inj, UInt32.toNat_zero]
  simp only [saturate, minInt64, maxInt64, UInt32.size] at *
  omega

/-! ## Reach -/

/-- How far a block lies above the line, whether or not that is a 64-bit integer. -/
def offset (model : FittedLine) (input block : UInt32) : Int :=
  block.toNat - model.nearestBlock input

/-- The offset of a block is a 32-bit integer, or the table ends with the block on that side. -/
structure Reaches (model : FittedLine) (input block : UInt32) : Prop where
  below : Int32.minValue.toInt ≤ model.offset input block ∨ block = model.lastBlock
  above : model.offset input block ≤ Int32.maxValue.toInt ∨ block = 0

/-- The range holds a block where both error bounds do, or where the table ends. -/
theorem predict_covers_iff (model : FittedLine) (input : UInt32) (hKeys : model.keyCount ≠ 0)
    (hOrder : model.minError.toInt ≤ model.maxError.toInt) (hBlock : block ≤ model.lastBlock) :
    (model.predict input).minBlock ≤ block ∧ block ≤ (model.predict input).maxBlock ↔
      (model.minError.toInt ≤ model.offset input block ∨ block = model.lastBlock) ∧
        (model.offset input block ≤ model.maxError.toInt ∨ block = 0) := by
  have hFirst := clampBlock_le_iff hBlock (model.nearestBlock input + model.minError.toInt)
  have hCut := clampBlock_le_iff hBlock (model.nearestBlock input + model.maxError.toInt)
  have hLast := le_clampBlock_iff hBlock (model.nearestBlock input + model.maxError.toInt)
  simp only [predict, if_neg hKeys]
  rw [Std.min_le, hFirst, hCut, hLast, offset]
  grind

/-! ## Stored bounds -/

/-- How far the blocks of the samples lie above the line, exactly. -/
def offsets (line : FittedLine) (samples : List (UInt32 × UInt32)) : List Int :=
  samples.map fun sample => line.offset sample.1 sample.2

theorem map_errorAt (line : FittedLine) (samples : List (UInt32 × UInt32)) :
    samples.map line.errorAt = (line.offsets samples).map saturate := by
  rw [offsets, List.map_map]
  rfl

theorem foldl_min_errors (h : (line.offsets samples).min? = some lowest) :
    (samples.map line.errorAt).foldl min maxInt64 = saturate lowest := by
  have hStart : maxInt64 = saturate maxInt64 := by decide
  rw [map_errorAt, hStart, List.foldl_map_hom fun m n => (saturate_min m n).symm, List.foldl_min, h]
  simp only [Option.getD_some, saturate, minInt64, maxInt64]
  omega

theorem foldl_max_errors (h : (line.offsets samples).max? = some highest) :
    (samples.map line.errorAt).foldl max minInt64 = saturate highest := by
  have hStart : minInt64 = saturate minInt64 := by decide
  rw [map_errorAt, hStart, List.foldl_map_hom fun m n => (saturate_max m n).symm, List.foldl_max, h]
  simp only [Option.getD_some, saturate, minInt64, maxInt64]
  omega

/-- The stored lower bound is the least exact error, widened by one block and cut down once. -/
theorem minError_boundErrors (h : (line.offsets samples).min? = some lowest) :
    (line.boundErrors samples).minError = Int32.ofIntClamp (lowest - 1) := by
  rw [boundErrors, foldl_min_errors h]
  exact ofIntClamp_saturate (.inl rfl) lowest

theorem maxError_boundErrors (h : (line.offsets samples).max? = some highest) :
    (line.boundErrors samples).maxError = Int32.ofIntClamp (highest + 1) := by
  rw [boundErrors, foldl_max_errors h]
  exact ofIntClamp_saturate (.inr rfl) highest

/-- The error of a sample lies between two exact bounds, of which the stored ones are the cuts. -/
theorem exists_bounds_of_mem (line : FittedLine) (h : (input, block) ∈ samples) :
    ∃ lowest highest : Int, lowest ≤ line.offset input block ∧ line.offset input block ≤ highest ∧
      (line.boundErrors samples).minError = Int32.ofIntClamp (lowest - 1) ∧
      (line.boundErrors samples).maxError = Int32.ofIntClamp (highest + 1) := by
  have hMem : line.offset input block ∈ line.offsets samples :=
    List.mem_map_of_mem (f := fun sample => line.offset sample.1 sample.2) h
  obtain ⟨lowest, hLowest⟩ := Option.isSome_iff_exists.mp (List.isSome_min?_of_mem hMem)
  obtain ⟨highest, hHighest⟩ := Option.isSome_iff_exists.mp (List.isSome_max?_of_mem hMem)
  exact ⟨lowest, highest, (List.min?_eq_some_iff.mp hLowest).2 _ hMem,
    (List.max?_eq_some_iff.mp hHighest).2 _ hMem, minError_boundErrors hLowest,
    maxError_boundErrors hHighest⟩

/-! ## Fitted lines -/

/-- The error of a sample lies between the stored bounds as far as it is a 32-bit integer. -/
theorem boundErrors_of_mem (line : FittedLine) (h : (input, block) ∈ samples) :
    let model := line.boundErrors samples
    (model.minError.toInt ≤ line.offset input block ↔
        Int32.minValue.toInt ≤ line.offset input block) ∧
      (line.offset input block ≤ model.maxError.toInt ↔
        line.offset input block ≤ Int32.maxValue.toInt) ∧
      model.minError.toInt ≤ model.maxError.toInt := by
  intro model
  obtain ⟨lowest, highest, hLow, hHigh, hMin, hMax⟩ := line.exists_bounds_of_mem h
  have hOrder : Int32.minValue.toInt ≤ Int32.maxValue.toInt := by decide
  simp only [model, hMin, hMax, toInt_ofIntClamp]
  omega

/-- The range of a sample holds its block exactly where the line reaches it. -/
theorem predict_boundErrors_iff (hKeys : line.keyCount ≠ 0) (h : (input, block) ∈ samples)
    (hBlock : block ≤ line.lastBlock) :
    let model := line.boundErrors samples
    (model.predict input).minBlock ≤ block ∧ block ≤ (model.predict input).maxBlock ↔
      model.Reaches input block := by
  intro model
  obtain ⟨hMin, hMax, hOrder⟩ := boundErrors_of_mem line h
  have hCovers := predict_covers_iff model input hKeys hOrder hBlock
  have hOffset : model.offset input block = line.offset input block := rfl
  rw [hCovers, hOffset, hMin, hMax, ← hOffset]
  exact ⟨fun hEdges => ⟨hEdges.1, hEdges.2⟩, fun hReaches => ⟨hReaches.below, hReaches.above⟩⟩

/-- The line of one key runs through its block, whatever the input. -/
theorem offset_ofOneKey (input block lastBlock : UInt32) :
    offset ⟨.zero, .ofUInt32 block, -1, 1, lastBlock, 1⟩ input block = 0 := by
  rw [offset, nearestBlock, Binary64.zero_mul_add, Binary64.nearestInteger_ofUInt32]
  omega

theorem predict_ofOneKey (input : UInt32) {block lastBlock : UInt32} (h : block ≤ lastBlock) :
    let model : FittedLine := ⟨.zero, .ofUInt32 block, -1, 1, lastBlock, 1⟩
    (model.predict input).minBlock ≤ block ∧ block ≤ (model.predict input).maxBlock ∧
      model.Reaches input block := by
  intro model
  have hOffset : model.offset input block = 0 := offset_ofOneKey input block lastBlock
  have hBelow : Int32.minValue.toInt ≤ model.offset input block := by
    rw [hOffset]
    decide
  have hAbove : model.offset input block ≤ Int32.maxValue.toInt := by
    rw [hOffset]
    decide
  have hKeys : model.keyCount ≠ 0 := (by decide : (1 : UInt32) ≠ 0)
  have hMin : model.minError.toInt ≤ 0 := (by decide : (-1 : Int32).toInt ≤ 0)
  have hMax : 0 ≤ model.maxError.toInt := (by decide : 0 ≤ (1 : Int32).toInt)
  have hCovers := predict_covers_iff model input hKeys (Int.le_trans hMin hMax) h
  rw [hOffset] at hCovers
  obtain ⟨hFirst, hLast⟩ := hCovers.mpr ⟨.inl hMin, .inl hMax⟩
  exact ⟨hFirst, hLast, .inl hBelow, .inl hAbove⟩

/-- Trained on a sample, the model is the line of that sample alone or a fitted line whose errors
are bounded over samples with this one among them. -/
theorem train_cases {inputs blocks : List UInt32} {totalBlocks i : Nat}
    (hInput : inputs[i]? = some input) (hBlock : blocks[i]? = some block) :
    train inputs blocks totalBlocks =
        ⟨.zero, .ofUInt32 block, -1, 1, lastOrdinal totalBlocks, 1⟩ ∨
      ∃ (line : FittedLine) (samples : List (UInt32 × UInt32)),
        train inputs blocks totalBlocks = line.boundErrors samples ∧ (input, block) ∈ samples ∧
          line.keyCount ≠ 0 ∧ line.lastBlock = lastOrdinal totalBlocks := by
  have hPair : (inputs.zip blocks)[i]? = some (input, block) :=
    List.getElem?_zip_eq_some.mpr ⟨hInput, hBlock⟩
  have hMem := List.mem_of_getElem? hPair
  rw [train]
  split
  · rename_i hNone
    rw [hNone] at hMem
    cases hMem
  · rename_i hOne
    rw [hOne, List.mem_singleton] at hMem
    cases hMem
    exact .inl rfl
  · have hSamples : inputs.zip blocks ≠ [] := List.ne_nil_of_mem hMem
    exact .inr ⟨_, _, rfl, hMem, storedCount_ne_zero hSamples, rfl⟩

theorem predict_train_iff {inputs blocks : List UInt32} {totalBlocks i : Nat}
    (hInput : inputs[i]? = some input) (hBlock : blocks[i]? = some block)
    (hTable : block.toNat < totalBlocks) :
    let model := train inputs blocks totalBlocks
    (model.predict input).minBlock ≤ block ∧ block ≤ (model.predict input).maxBlock ↔
      model.Reaches input block := by
  have hLast := le_lastOrdinal hTable
  rcases train_cases hInput hBlock with hOne | ⟨line, samples, hLine, hMem, hKeys, hEnd⟩
  · rw [hOne]
    obtain ⟨hFirst, hCovered, hReaches⟩ := predict_ofOneKey input hLast
    exact ⟨fun _ => hReaches, fun _ => ⟨hFirst, hCovered⟩⟩
  · rw [hLine]
    rw [← hEnd] at hLast
    exact predict_boundErrors_iff hKeys hMem hLast

end FittedLine

/-! ## Trained keys -/

/-- The number that the position model takes for the key of a rank. -/
def PositionInput.ofKey (positionInput : PositionInput) (rank : Nat) (hash : KeyHash) : UInt32 :=
  match positionInput with
  | .keyHash => hash
  | .ordinal => UInt32.ofNat rank

variable {hashes : List KeyHash} {hash : KeyHash} {blocks : List UInt32} {block : UInt32}
  {totalBlocks i : Nat} {config : Config}

theorem LearnedIndex.predict_fit_iff (hHash : hashes[i]? = some hash)
    (hBlock : blocks[i]? = some block) (hTable : block.toNat < totalBlocks)
    (hRanks : config.positionInput = .ordinal → hashes.length < UInt32.size) :
    let index := fit hashes blocks totalBlocks config
    let input := config.positionInput.ofKey i hash
    (index.predict input).minBlock ≤ block ∧ block ≤ (index.predict input).maxBlock ↔
      index.model.Reaches input block := by
  intro index input
  simp only [index, input, predict, fit]
  cases hInput : config.positionInput with
  | keyHash => exact FittedLine.predict_train_iff hHash hBlock hTable
  | ordinal =>
      obtain ⟨hRank, _⟩ := List.getElem?_eq_some_iff.mp hHash
      have hOrdinal := getElem?_ranks (hRanks hInput) hRank
      exact FittedLine.predict_train_iff hOrdinal hBlock hTable

namespace TableFilter

variable {filter : TableFilter}

/-- A query for a trained key answers with a range, by the hash alone where the model was trained on
hashes. The range holds the block of the key exactly where the model reaches it. -/
theorem lookupAt_of_train (hTrain : train hashes blocks totalBlocks config = .ok filter)
    (hKind : config.kind = .hybrid) (hRanks : config.RanksFit hashes.length)
    (hHash : hashes[i]? = some hash) (hBlock : blocks[i]? = some block) :
    let input := config.positionInput.ofKey i hash
    ∃ index first last, filter = .hybrid index config.positionInput ∧
      filter.lookupAt hash input = .present first last ∧
      (first ≤ block ∧ block ≤ last ↔ index.model.Reaches input block) ∧
      (config.positionInput = .keyHash → filter.lookup hash = .present first last) := by
  intro input
  have hMay := mayContain_of_train hTrain (List.mem_of_getElem? hHash)
  obtain ⟨hTrainable, hCases⟩ := train_cases hTrain
  have hTable := hTrainable.inTable block (List.mem_of_getElem? hBlock)
  rcases hCases with ⟨hOther, _⟩ | ⟨_, rfl⟩ | ⟨hOther, _⟩
  · rw [hKind] at hOther
    cases hOther
  · have hLookup := LearnedIndex.lookupAt_of_mayContain hMay
    have hReaches := LearnedIndex.predict_fit_iff hHash hBlock hTable (hRanks hKind)
    refine ⟨_, _, _, rfl, hLookup input, hReaches, ?_⟩
    intro hInput
    have hSame : input = hash := by
      simp only [input, hInput, PositionInput.ofKey]
    rw [hSame, hInput]
    exact hLookup hash
  · rw [hKind] at hOther
    cases hOther

/-- Three keys of one hash, two in the first block and one in the last of `2 ^ 32` blocks. -/
theorem lookupAt_of_train_far :
    let line : FittedLine :=
      ⟨.zero, ⟨0x41d5555555400000⟩, -1431655766, 2147483647, 0xFFFFFFFF, 3⟩
    let filter : TableFilter := .hybrid ⟨⟨#[1, 0, 0, 0, 0, 0, 0, 0], 15⟩, line⟩ .keyHash
    train [0, 0, 0] [0, 0, 0xFFFFFFFF] UInt32.size { bloomBytes := 8 } = .ok filter ∧
      ∃ index first last, filter = .hybrid index .keyHash ∧
        filter.lookupAt 0 0 = .present first last ∧
        (first ≤ 0xFFFFFFFF ∧ 0xFFFFFFFF ≤ last ↔ index.model.Reaches 0 0xFFFFFFFF) ∧
        (PositionInput.keyHash = .keyHash → filter.lookup 0 = .present first last) := by
  intro line filter
  have hTrain : train [0, 0, 0] [0, 0, 0xFFFFFFFF] UInt32.size { bloomBytes := 8 } =
      .ok filter := by
    decide +kernel
  exact ⟨hTrain, lookupAt_of_train (i := 2) hTrain rfl nofun rfl rfl⟩

/-- The line runs through the mean block, so the last key lies more than `2 ^ 31` blocks above it
and its block is not scanned. -/
theorem lookupAt_misses_far :
    ∃ filter, train [0, 0, 0] [0, 0, 0xFFFFFFFF] UInt32.size { bloomBytes := 8 } = .ok filter ∧
      ∃ first last, filter.lookupAt 0 0 = .present first last ∧
        ¬(first ≤ 0xFFFFFFFF ∧ 0xFFFFFFFF ≤ last) := by
  let line : FittedLine := ⟨.zero, ⟨0x41d5555555400000⟩, -1431655766, 2147483647, 0xFFFFFFFF, 3⟩
  refine ⟨.hybrid ⟨⟨#[1, 0, 0, 0, 0, 0, 0, 0], 15⟩, line⟩ .keyHash, ?_, 0, 3579139412, ?_, ?_⟩
  · decide +kernel
  · decide +kernel
  · decide

end TableFilter

end BlockFilter
