import BlockFilter.Proofs.ScanRange

/-! Answers of filters with any fields, such as a hostile block may bring. Bounds on the error may be
the wrong way round, the line may give anything, the span of hashes may be empty and there may be no
bits, blocks or probes. The computations are repeated here with checked operations, which give
nothing where a program would stop. They always give the value that the filter answers with. -/

namespace BlockFilter

/-! ## Checked operations -/

namespace Checked

/-- The difference of unsigned words, where it is not negative. -/
def sub (a b : UInt32) : Option UInt32 := if b ≤ a then some (a - b) else none

/-- The remainder of unsigned words, where the divisor is not zero. -/
def mod (a b : UInt32) : Option UInt32 := if b = 0 then none else some (a % b)

/-- The difference of two integers, where it is a signed 64-bit integer. -/
def subInt64 (a b : Int) : Option Int :=
  if minInt64 ≤ a - b ∧ a - b ≤ maxInt64 then some (a - b) else none

theorem sub_of_le {a b : UInt32} (h : b ≤ a) : sub a b = some (a - b) := if_pos h

theorem mod_of_ne_zero (a : UInt32) {b : UInt32} (h : b ≠ 0) : mod a b = some (a % b) := if_neg h

theorem subInt64_toInt (a b : Int32) : subInt64 a.toInt b.toInt = some (a.toInt - b.toInt) := by
  have hLeast := a.le_toInt
  have hLargest := a.toInt_lt
  have hLeast' := b.le_toInt
  have hLargest' := b.toInt_lt
  apply if_pos
  simp only [minInt64, maxInt64]
  omega

end Checked

/-! ## Bits -/

namespace Bloom

/-- Whether the bits at the next `count` positions from a hash are all set, up to the first that is
not. -/
def allSet? (bloom : Bloom) (step : UInt32) : Nat → UInt32 → Option Bool
  | 0, _ => some true
  | count + 1, hash => do
      let position ← Checked.mod hash bloom.numBits
      let bit ← bloom.bit? position
      if bit then bloom.allSet? step count (hash + step) else return false

def mayContain? (bloom : Bloom) (hash : KeyHash) : Option Bool :=
  if bloom.bits.isEmpty then some true
  else
    let probe := ProbeSequence.start hash bloom.probes bloom.numBits
    bloom.allSet? probe.step probe.remaining probe.hash

theorem div_lt_of_mem_positions {bloom : Bloom} {hash : KeyHash} {position : UInt32}
    (h : position ∈ bloom.positions hash) :
    position < bloom.numBits ∧ (position / 8).toNat < bloom.bits.size := by
  have hBits := ProbeSequence.lt_of_mem_positions h
  obtain ⟨bit, hBit⟩ := exists_bit?_of_lt hBits
  obtain ⟨byte, hByte, _⟩ := Option.map_eq_some_iff.mp hBit
  exact ⟨hBits, (Array.getElem?_eq_some_iff.mp hByte).1⟩

/-- One probe after the other finds its bit in the array. -/
theorem allSet?_eq {bloom : Bloom} (hBits : bloom.numBits ≠ 0) (step : UInt32) (count : Nat)
    (hash : UInt32) :
    bloom.allSet? step count hash = some ((ProbeSequence.walk step bloom.numBits count hash).all
      fun position => bloom.bit? position == some true) := by
  induction count generalizing hash with
  | zero => rfl
  | succ count ih =>
      have hPosition := UInt32.mod_lt hash (UInt32.pos_iff_ne_zero.mpr hBits)
      obtain ⟨bit, hBit⟩ := exists_bit?_of_lt hPosition
      simp only [allSet?, ProbeSequence.walk, List.all_cons, Checked.mod_of_ne_zero hash hBits,
        Option.bind_eq_bind, Option.bind_some, hBit, ih]
      cases bit <;> rfl

theorem mayContain?_eq (bloom : Bloom) (hash : KeyHash) :
    bloom.mayContain? hash = some (bloom.mayContain hash) := by
  rw [mayContain?, mayContain]
  cases bloom.bits.isEmpty with
  | true => rfl
  | false =>
      rw [if_neg Bool.false_ne_true, Bool.false_or, positions, ProbeSequence.positions,
        ProbeSequence.toList]
      by_cases hBits : bloom.numBits = 0
      · simp only [ProbeSequence.start, if_pos hBits, allSet?, ProbeSequence.walk, List.all_nil]
      · exact allSet?_eq hBits ..

end Bloom

/-! ## Positions -/

/-- Every block of a prediction is in a table with this last block. -/
structure Prediction.InTable (prediction : Prediction) (lastBlock : UInt32) : Prop where
  block : prediction.block ≤ lastBlock
  ordered : prediction.minBlock ≤ prediction.maxBlock
  maxBlock : prediction.maxBlock ≤ lastBlock

namespace FittedLine

/-- The prediction around a position, which is what the line gives. -/
def around (model : FittedLine) (position : Int) : Prediction :=
  let last := model.clampBlock (saturate (position + model.maxError.toInt))
  let first := model.clampBlock (saturate (position + model.minError.toInt))
  ⟨model.clampBlock position, min first last, last⟩

def errorRange? (model : FittedLine) : Option UInt32 := do
  let width ← Checked.subInt64 model.maxError.toInt model.minError.toInt
  return UInt32.ofNat width.toNat

theorem clampBlock_le_lastBlock (model : FittedLine) (position : Int) :
    model.clampBlock position ≤ model.lastBlock := by
  rw [UInt32.le_iff_toNat_le, ← Int.ofNat_le, toNat_clampBlock]
  omega

/-- Neither the position nor the order of the error bounds matters. -/
theorem around_inTable (model : FittedLine) (position : Int) :
    (model.around position).InTable model.lastBlock where
  block := model.clampBlock_le_lastBlock position
  ordered := Std.min_le_right
  maxBlock := model.clampBlock_le_lastBlock _

theorem predict_eq_around {model : FittedLine} (hKeys : model.keyCount ≠ 0) (input : UInt32) :
    model.predict input = model.around (model.nearestBlock input) :=
  if_neg hKeys

theorem predict_inTable (model : FittedLine) (input : UInt32) :
    (model.predict input).InTable model.lastBlock := by
  by_cases hKeys : model.keyCount = 0
  · rw [predict, if_pos hKeys]
    exact ⟨UInt32.zero_le, UInt32.zero_le, UInt32.le_refl _⟩
  · rw [predict_eq_around hKeys]
    exact model.around_inTable _

theorem errorRange?_eq (model : FittedLine) : model.errorRange? = some model.errorRange := by
  rw [errorRange?, Checked.subInt64_toInt]
  rfl

/-- The width of the error bounds is kept as it is, unless they are the wrong way round. -/
theorem toNat_errorRange (model : FittedLine) :
    (model.errorRange.toNat : Int) = max 0 (model.maxError.toInt - model.minError.toInt) := by
  have hMin := model.minError.le_toInt
  have hMax := model.maxError.toInt_lt
  rw [errorRange, UInt32.toNat_ofNat_of_lt']
  · omega
  · simp only [UInt32.size]
    omega

end FittedLine

/-- The guess, with the width of the span and the last ordinal checked. The distance of the hash from
the lower end is cut off at zero, so it needs no check. -/
def SpanFilter.guessBlock? (bounds : SpanFilter) (hash : KeyHash) : Option UInt32 :=
  if bounds.numBlocks = 0 then some 0
  else if bounds.maxHash ≤ bounds.minHash then some (bounds.numBlocks / 2)
  else do
    let span ← Checked.sub bounds.maxHash bounds.minHash
    let last ← Checked.sub bounds.numBlocks 1
    let offset := min (hash.toNat - bounds.minHash.toNat) span.toNat
    let share := Binary64.nearestRatio offset span.toNat
    let product := Binary64.nearestRatio (share.1 * last.toNat) share.2
    return UInt32.ofNat (product.1 / product.2)

theorem SpanFilter.guessBlock?_eq (bounds : SpanFilter) (hash : KeyHash) :
    bounds.guessBlock? hash = some (bounds.guessBlock hash) := by
  rw [guessBlock?, guessBlock]
  by_cases hBlocks : bounds.numBlocks = 0
  · rw [if_pos hBlocks, if_pos hBlocks]
  rw [if_neg hBlocks, if_neg hBlocks]
  by_cases hSpan : bounds.maxHash ≤ bounds.minHash
  · rw [if_pos hSpan, if_pos hSpan]
  have hOrder : bounds.minHash ≤ bounds.maxHash := UInt32.le_of_lt (UInt32.not_le.mp hSpan)
  have hOne : 1 ≤ bounds.numBlocks := by
    rw [UInt32.le_iff_toNat_le, UInt32.toNat_one]
    exact Nat.one_le_iff_ne_zero.mpr fun h => hBlocks (UInt32.toNat.inj h)
  rw [if_neg hSpan, if_neg hSpan, Checked.sub_of_le hOrder, Checked.sub_of_le hOne,
    ← UInt32.toNat_sub_of_le _ _ hOrder, ← UInt32.toNat_one, ← UInt32.toNat_sub_of_le _ _ hOne]
  rfl

/-! ## Answers -/

namespace Lookup

/-- The one answer that names no block. -/
structure NamesNothing (answer : Lookup) : Prop where
  isPresent : answer.isPresent = false
  minBlock : answer.minBlock = 0
  maxBlock : answer.maxBlock = 0
  scanLength : answer.scanLength = 0
  range? : answer.range? = none

/-- An answer that names a range of a table with this last block. The length of the range is exact
and does not pass the number of 32-bit words. -/
structure NamesRange (answer : Lookup) (lastBlock : UInt32) : Prop where
  isPresent : answer.isPresent = true
  range? : answer.range? = some (answer.minBlock, answer.maxBlock)
  ordered : answer.minBlock ≤ answer.maxBlock
  inTable : answer.maxBlock ≤ lastBlock
  scanLength : (answer.scanLength : Int) = answer.maxBlock.toNat - answer.minBlock.toNat + 1
  positive : 1 ≤ answer.scanLength
  bounded : answer.scanLength ≤ 2 ^ 32

def Sound (answer : Lookup) (lastBlock : UInt32) : Prop :=
  answer.NamesNothing ∨ answer.NamesRange lastBlock

theorem sound_absent (lastBlock : UInt32) : absent.Sound lastBlock :=
  .inl ⟨rfl, rfl, rfl, rfl, rfl⟩

theorem sound_present {first last lastBlock : UInt32} (hOrder : first ≤ last)
    (hTable : last ≤ lastBlock) : (present first last).Sound lastBlock := by
  have hWord : last.toNat < 2 ^ 32 := last.toNat_lt
  have hNat : first.toNat ≤ last.toNat := UInt32.le_iff_toNat_le.mp hOrder
  refine .inr ⟨rfl, rfl, hOrder, hTable, ?_, ?_, ?_⟩ <;>
    simp only [scanLength, minBlock, maxBlock] <;>
    omega

end Lookup

namespace TableFilter

variable {filter : TableFilter} {hash : KeyHash}

/-- The bits are looked at last, and not where there are no keys. -/
def mayContain? : TableFilter → KeyHash → Option Bool
  | bloom filter _ keyCount, hash => if keyCount == 0 then some true else filter.mayContain? hash
  | hybrid index _, hash =>
      if index.keyCount == 0 then some true else index.filter.mayContain? hash
  | bounds filter, hash =>
      if filter.keyCount == 0 then some true
      else if filter.minHash ≤ hash && hash ≤ filter.maxHash then filter.filter.mayContain? hash
      else some false

/-- The range figure, which only a learned index takes from a difference. -/
def errorRange? : TableFilter → Option UInt32
  | bloom _ lastBlock _ => some lastBlock
  | hybrid index _ => index.model.errorRange?
  | bounds filter => some filter.lastBlock

theorem mayContain?_eq (filter : TableFilter) (hash : KeyHash) :
    filter.mayContain? hash = some (filter.mayContain hash) := by
  cases filter with
  | bloom filter lastBlock keyCount =>
      simp only [mayContain?, mayContain, Bloom.mayContain?_eq]
      cases keyCount == 0 <;> rfl
  | hybrid index input =>
      simp only [mayContain?, mayContain, LearnedIndex.mayContain, Bloom.mayContain?_eq]
      cases index.keyCount == 0 <;> rfl
  | bounds filter =>
      simp only [mayContain?, mayContain, SpanFilter.mayContain, Bloom.mayContain?_eq]
      cases filter.keyCount == 0 with
      | true => rfl
      | false => cases decide (filter.minHash ≤ hash) && decide (hash ≤ filter.maxHash) <;> rfl

theorem errorRange?_eq (filter : TableFilter) :
    filter.errorRange? = some filter.stats.errorRange := by
  cases filter with
  | bloom filter lastBlock keyCount => rfl
  | hybrid index input => exact index.model.errorRange?_eq
  | bounds filter => rfl

theorem sound_wholeTable (filter : TableFilter) (hash : KeyHash) :
    (filter.wholeTable hash).Sound filter.lastBlock := by
  rw [wholeTable]
  split
  · exact Lookup.sound_present UInt32.zero_le (UInt32.le_refl _)
  · exact Lookup.sound_absent _

theorem sound_lookupAt (filter : TableFilter) (hash : KeyHash) (input : UInt32) :
    (filter.lookupAt hash input).Sound filter.lastBlock := by
  cases filter with
  | bloom filter lastBlock keyCount => exact sound_wholeTable ..
  | bounds filter => exact sound_wholeTable ..
  | hybrid index positionInput =>
      rw [lookupAt, LearnedIndex.lookupAt]
      split
      · have hTable := index.model.predict_inTable input
        exact Lookup.sound_present hTable.ordered hTable.maxBlock
      · exact Lookup.sound_absent _

/-- Without an input of its own the model takes the hash, or is not asked at all. -/
theorem sound_lookup (filter : TableFilter) (hash : KeyHash) :
    (filter.lookup hash).Sound filter.lastBlock := by
  cases filter with
  | bloom filter lastBlock keyCount => exact sound_wholeTable ..
  | bounds filter => exact sound_wholeTable ..
  | hybrid index positionInput =>
      cases positionInput with
      | keyHash => exact sound_lookupAt (.hybrid index .keyHash) hash hash
      | ordinal => exact sound_wholeTable ..

/-- Whatever a filter holds, each probe of a hash finds its bit in the array, every answer is absence
or a range of the table, and no difference leaves its type. A model predicts blocks of its table
wherever its line runs. -/
theorem answers_sound (filter : TableFilter) :
    (∀ hash, ∀ position ∈ filter.membership.positions hash,
        position < filter.membership.numBits ∧
          (position / 8).toNat < filter.membership.bits.size) ∧
      (∀ hash, filter.mayContain? hash = some (filter.mayContain hash)) ∧
      (∀ hash, (filter.lookup hash).Sound filter.lastBlock) ∧
      (∀ hash input, (filter.lookupAt hash input).Sound filter.lastBlock) ∧
      filter.errorRange? = some filter.stats.errorRange ∧
      (∀ (bounds : SpanFilter) (hash : KeyHash),
        bounds.guessBlock? hash = some (bounds.guessBlock hash)) ∧
      ∀ model : FittedLine, model.errorRange? = some model.errorRange ∧
        (model.errorRange.toNat : Int) = max 0 (model.maxError.toInt - model.minError.toInt) ∧
        (∀ position, (model.around position).InTable model.lastBlock) ∧
        ∀ input, (model.predict input).InTable model.lastBlock := by
  refine ⟨?_, filter.mayContain?_eq, filter.sound_lookup, filter.sound_lookupAt,
    filter.errorRange?_eq, SpanFilter.guessBlock?_eq, ?_⟩
  · intro hash position hPosition
    exact Bloom.div_lt_of_mem_positions hPosition
  · intro model
    exact ⟨model.errorRange?_eq, model.toNat_errorRange, model.around_inTable,
      model.predict_inTable⟩

end TableFilter

end BlockFilter
