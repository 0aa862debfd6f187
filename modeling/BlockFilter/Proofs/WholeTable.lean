import BlockFilter.Proofs.NoFalseNegatives

/-! The last block of a trained filter and the range up to it. Two variants take the last ordinal
before they cut the count of blocks down to 32 bits, and their range is the whole table. The span
filter cuts the count down first, so it stops one block early in a table of `2 ^ 32` blocks or
more. -/

namespace BlockFilter.TableFilter

variable {hashes : List KeyHash} {hash : KeyHash} {blocks : List UInt32} {totalBlocks : Nat}
  {config : Config} {filter : TableFilter}

/-! ## The last block -/

theorem toNat_lastBlock_of_train (hTrain : train hashes blocks totalBlocks config = .ok filter) :
    filter.lastBlock.toNat =
      if filter.kind = .bounds then min totalBlocks (UInt32.size - 1) - 1
      else min (totalBlocks - 1) (UInt32.size - 1) := by
  obtain ⟨_, ⟨_, rfl⟩ | ⟨_, rfl⟩ | ⟨_, bounds, rfl, hBounds⟩⟩ := train_cases hTrain
  · exact toNat_lastOrdinal totalBlocks
  · rw [lastBlock, LearnedIndex.fit, FittedLine.lastBlock_train]
    exact toNat_lastOrdinal totalBlocks
  · obtain ⟨_, hCount, _⟩ := SpanFilter.of_train hBounds
    rw [lastBlock, SpanFilter.lastBlock, hCount, toNat_lastOrdinal, toNat_ofNatClamp, kind,
      if_pos rfl]
    omega

/-- The last block is the last ordinal unless a span filter cuts the count of blocks. -/
theorem toNat_lastBlock_eq_iff (hTrain : train hashes blocks totalBlocks config = .ok filter) :
    filter.lastBlock.toNat = min (totalBlocks - 1) (UInt32.size - 1) ↔
      filter.kind ≠ .bounds ∨ totalBlocks < UInt32.size := by
  rw [toNat_lastBlock_of_train hTrain]
  by_cases hKind : filter.kind = .bounds
  · simp only [hKind, if_true, ne_eq, not_true_eq_false, false_or, UInt32.size]
    omega
  · simp only [hKind, if_false, ne_eq, not_false_eq_true, true_or]

/-- Only the block with the largest ordinal of all can be cut off. -/
theorem forall_le_lastBlock_iff (hTrain : train hashes blocks totalBlocks config = .ok filter) :
    (∀ block ∈ blocks, block ≤ filter.lastBlock) ↔
      filter.kind ≠ .bounds ∨ 0xFFFFFFFF ∉ blocks := by
  have hInTable := (train_cases hTrain).1.inTable
  have hWords : (0xFFFFFFFF : UInt32).toNat = UInt32.size - 1 := by decide
  simp only [UInt32.le_iff_toNat_le, toNat_lastBlock_of_train hTrain]
  by_cases hKind : filter.kind = .bounds
  · simp only [hKind, if_true, ne_eq, not_true_eq_false, false_or]
    constructor
    · intro h hLargest
      have hLargest' := h _ hLargest
      rw [hWords] at hLargest'
      simp only [UInt32.size] at hLargest'
      omega
    · intro h block hBlock
      have hBelow := hInTable block hBlock
      have hWord := block.toNat_lt_size
      have hOther : block.toNat ≠ UInt32.size - 1 := by
        intro hEq
        have hSame : block = 0xFFFFFFFF := UInt32.toNat.inj (hEq.trans hWords.symm)
        exact h (hSame ▸ hBlock)
      omega
  · simp only [hKind, if_false, ne_eq, not_false_eq_true, true_or, iff_true]
    intro block hBlock
    have hBelow := hInTable block hBlock
    have hWord := block.toNat_lt_size
    omega

/-! ## The range -/

/-- Without an input for the model a lookup names the whole table. -/
theorem lookup_eq_wholeTable (h : filter.positionInput? ≠ some .keyHash) :
    filter.lookup hash = filter.wholeTable hash := by
  cases filter with
  | bloom bits lastBlock keyCount => rfl
  | bounds bounds => rfl
  | hybrid index positionInput =>
      cases positionInput with
      | keyHash => exact absurd rfl h
      | ordinal => rfl

theorem lookup_of_train (hTrain : train hashes blocks totalBlocks config = .ok filter)
    (hInput : filter.positionInput? ≠ some .keyHash) (hMem : hash ∈ hashes) :
    filter.lookup hash = .present 0 filter.lastBlock := by
  rw [lookup_eq_wholeTable hInput, wholeTable, if_pos (mayContain_of_train hTrain hMem)]

/-- The last block, the trained blocks below it, its agreement between two variants on one table and
the range up to it. All are as the table has them, except that a span filter ends one block early
where the count of blocks does not fit 32 bits. -/
theorem lastBlock_of_train (hTrain : train hashes blocks totalBlocks config = .ok filter) :
    (filter.lastBlock.toNat = min (totalBlocks - 1) (UInt32.size - 1) ↔
        filter.kind ≠ .bounds ∨ totalBlocks < UInt32.size) ∧
      (filter.kind = .bounds → UInt32.size ≤ totalBlocks →
        filter.lastBlock.toNat = UInt32.size - 2) ∧
      ((∀ block ∈ blocks, block ≤ filter.lastBlock) ↔
        filter.kind ≠ .bounds ∨ 0xFFFFFFFF ∉ blocks) ∧
      (∀ otherConfig other, train hashes blocks totalBlocks otherConfig = .ok other →
        (filter.lastBlock = other.lastBlock ↔
          totalBlocks < UInt32.size ∨ (filter.kind = .bounds ↔ other.kind = .bounds))) ∧
      (filter.positionInput? ≠ some .keyHash →
        ∀ hash ∈ hashes, filter.lookup hash = .present 0 filter.lastBlock) := by
  have hLast := toNat_lastBlock_of_train hTrain
  refine ⟨toNat_lastBlock_eq_iff hTrain, ?_, forall_le_lastBlock_iff hTrain, ?_, ?_⟩
  · intro hKind hLarge
    rw [hLast, if_pos hKind]
    omega
  · intro otherConfig other hOther
    rw [← UInt32.toNat_inj, hLast, toNat_lastBlock_of_train hOther]
    by_cases hKind : filter.kind = .bounds <;> by_cases hOtherKind : other.kind = .bounds <;>
      simp only [hKind, hOtherKind, if_true, if_false, UInt32.size, iff_self, or_true, iff_false,
        not_true_eq_false, false_iff, or_false] <;>
      omega
  · intro hInput hash hMem
    exact lookup_of_train hTrain hInput hMem

/-- One key in the last of `2 ^ 32` blocks: the span filter ends one block before it. -/
theorem lastBlock_of_train_full :
    let filter : TableFilter := .bounds ⟨⟨#[2, 0, 0, 0, 0, 0, 0, 0], 6⟩, 1, 1, 0xFFFFFFFF, 1⟩
    train [1] [0xFFFFFFFF] UInt32.size { kind := .bounds, bitsPerKey := some 8 } = .ok filter ∧
      filter.lastBlock.toNat = UInt32.size - 2 ∧
      ∀ hash ∈ [1], filter.lookup hash = .present 0 filter.lastBlock := by
  intro filter
  have hTrain : train [1] [0xFFFFFFFF] UInt32.size { kind := .bounds, bitsPerKey := some 8 } =
      .ok filter := by
    decide +kernel
  obtain ⟨_, hLast, _, _, hLookup⟩ := lastBlock_of_train hTrain
  exact ⟨hTrain, hLast rfl (Nat.le_refl _), hLookup nofun⟩

/-- So the range that is always the whole table leaves out the block of the only key. -/
theorem lastBlock_lt_of_train_full :
    ∃ filter,
      train [1] [0xFFFFFFFF] UInt32.size { kind := .bounds, bitsPerKey := some 8 } = .ok filter ∧
        filter.lastBlock.toNat ≠ min (UInt32.size - 1) (UInt32.size - 1) ∧
        (∃ block ∈ [0xFFFFFFFF], ¬block ≤ filter.lastBlock) ∧
        filter.lookup 1 = .present 0 0xFFFFFFFE := by
  refine ⟨.bounds ⟨⟨#[2, 0, 0, 0, 0, 0, 0, 0], 6⟩, 1, 1, 0xFFFFFFFF, 1⟩, ?_, ?_, ?_, ?_⟩
  · decide +kernel
  · decide
  · exact ⟨0xFFFFFFFF, List.mem_singleton_self _, by decide⟩
  · decide +kernel

end BlockFilter.TableFilter
