import BlockFilter.Proofs.Queries
import BlockFilter.Proofs.Training

/-! Absence and its causes. A filter of no keys names the whole table for every hash, whatever its
other fields hold. A hash is absent only from a filter of keys, because of a bit that is not set or
because it lies outside the span. Training keeps the number of keys, so only a table without keys gets
a filter of no keys. -/

namespace BlockFilter

variable {hash : KeyHash}

/-- Only an unset bit takes a hash out, and a bit array is needed for that. -/
theorem Bloom.mayContain_eq_false_iff (bloom : Bloom) (hash : KeyHash) :
    bloom.mayContain hash = false ↔
      bloom.bits ≠ #[] ∧ ∃ position ∈ bloom.positions hash, bloom.bit? position = some false := by
  rw [← Bool.not_eq_true, mayContain_iff]
  constructor
  · intro h
    obtain ⟨position, hPosition, hUnset⟩ :
        ∃ position ∈ bloom.positions hash, bloom.bit? position ≠ some true := by simpa using h
    obtain ⟨bit, hBit⟩ := exists_bit?_of_lt (ProbeSequence.lt_of_mem_positions hPosition)
    have hFalse : bit = false := by simpa [hBit] using hUnset
    refine ⟨?_, position, hPosition, hFalse ▸ hBit⟩
    intro hEmpty
    simp [bit?, hEmpty] at hBit
  · rintro ⟨_, position, hPosition, hUnset⟩ hAll
    simp [hAll position hPosition] at hUnset

theorem Lookup.eq_absent_iff (answer : Lookup) : answer = .absent ↔ answer.isPresent = false := by
  cases answer with
  | absent => simp [isPresent]
  | present first last => simp [isPresent]

/-! ## The number of keys -/

theorem FittedLine.keyCount_train (inputs blocks : List UInt32) (totalBlocks : Nat) :
    (train inputs blocks totalBlocks).keyCount = storedCount (inputs.zip blocks) := by
  rw [train]
  split
  · rename_i hNone
    rw [hNone]
    rfl
  · rename_i hOne
    rw [hOne]
    rfl
  · rw [fit, boundErrors]

/-- A model of ranks counts the ranks, which are as many as the keys while those are fewer than
`2 ^ 32`. -/
theorem LearnedIndex.keyCount_fit {hashes : List KeyHash} {blocks : List UInt32}
    {totalBlocks : Nat} {config : Config} (hPaired : hashes.length = blocks.length)
    (hRanks : config.positionInput = .ordinal → hashes.length < UInt32.size) :
    (fit hashes blocks totalBlocks config).keyCount = storedCount hashes := by
  rw [keyCount, fit, FittedLine.keyCount_train, storedCount, storedCount]
  cases hInput : config.positionInput with
  | keyHash => simp [hPaired]
  | ordinal => simp [hPaired, length_ranks (hPaired ▸ hRanks hInput)]

theorem SpanFilter.keyCount_train {hashes : List KeyHash} {totalBlocks bitsPerKey : Nat}
    {bounds : SpanFilter} (h : train hashes totalBlocks bitsPerKey = .ok bounds) :
    bounds.keyCount = storedCount hashes := by
  cases hashes with
  | nil =>
      cases h
      rfl
  | cons first rest =>
      simp only [train] at h
      split at h
      · cases h
      · cases h
        rfl

namespace TableFilter

variable {filter : TableFilter} {hashes : List KeyHash} {blocks : List UInt32} {totalBlocks : Nat}
  {config : Config}

theorem keyCount_of_train (hTrain : train hashes blocks totalBlocks config = .ok filter)
    (hRanks : config.RanksFit hashes.length) : filter.keyCount = storedCount hashes := by
  obtain ⟨hTrainable, ⟨_, rfl⟩ | ⟨hKind, rfl⟩ | ⟨_, bounds, rfl, hBounds⟩⟩ := train_cases hTrain
  · rfl
  · exact LearnedIndex.keyCount_fit hTrainable.paired (hRanks hKind)
  · exact SpanFilter.keyCount_train hBounds

/-! ## Answers -/

/-- Whether the span lets a hash through. Only a span filter has one. -/
def inSpan : TableFilter → KeyHash → Bool
  | bounds span, hash => span.minHash ≤ hash && hash ≤ span.maxHash
  | _, _ => true

/-- The gates that a hash passes are the same in every variant. -/
theorem mayContain_eq (filter : TableFilter) (hash : KeyHash) :
    filter.mayContain hash =
      (filter.keyCount == 0 || (filter.inSpan hash && filter.membership.mayContain hash)) := by
  cases filter with
  | bloom bits lastBlock keyCount => rfl
  | hybrid index input => rfl
  | bounds span => rfl

theorem inSpan_eq_false_iff :
    filter.inSpan hash = false ↔
      ∃ span, filter = .bounds span ∧ (hash < span.minHash ∨ span.maxHash < hash) := by
  cases filter with
  | bloom bits lastBlock keyCount => exact ⟨nofun, nofun⟩
  | hybrid index input => exact ⟨nofun, nofun⟩
  | bounds span => simp [inSpan, Decidable.imp_iff_not_or]

/-- Why a hash is not in a filter: the filter is of some keys, and a bit of the hash is not set or the
hash is outside the span. -/
structure Excludes (filter : TableFilter) (hash : KeyHash) : Prop where
  hasKeys : filter.keyCount ≠ 0
  cause :
    (filter.membership.bits ≠ #[] ∧ ∃ position ∈ filter.membership.positions hash,
        filter.membership.bit? position = some false) ∨
      ∃ span, filter = .bounds span ∧ (hash < span.minHash ∨ span.maxHash < hash)

theorem mayContain_eq_false_iff : filter.mayContain hash = false ↔ filter.Excludes hash := by
  have hBits := filter.membership.mayContain_eq_false_iff hash
  have hSpan : filter.inSpan hash = false ↔ _ := inSpan_eq_false_iff
  rw [mayContain_eq, Bool.or_eq_false_iff, Bool.and_eq_false_iff, hBits, hSpan, beq_eq_false_iff_ne]
  constructor
  · rintro ⟨hKeys, hCause⟩
    exact ⟨hKeys, hCause.symm⟩
  · intro h
    exact ⟨h.hasKeys, h.cause.symm⟩

theorem wholeTable_of_keyCount (h : filter.keyCount = 0) :
    filter.wholeTable hash = .present 0 filter.lastBlock := by
  rw [wholeTable, mayContain_eq, h]
  rfl

/-- A model of no keys predicts the whole table, so its line and its input play no part. -/
theorem lookupAt_of_keyCount (h : filter.keyCount = 0) (input : UInt32) :
    filter.lookupAt hash input = .present 0 filter.lastBlock := by
  cases filter with
  | bloom bits lastBlock keyCount => exact wholeTable_of_keyCount h
  | bounds span => exact wholeTable_of_keyCount h
  | hybrid index positionInput =>
      have hKeys : index.model.keyCount = 0 := h
      have hMay : index.mayContain hash = true := by
        rw [LearnedIndex.mayContain, LearnedIndex.keyCount, hKeys]
        rfl
      rw [lookupAt, LearnedIndex.lookupAt_of_mayContain hMay, LearnedIndex.predict,
        FittedLine.predict, if_pos hKeys]
      rfl

theorem lookup_of_keyCount (h : filter.keyCount = 0) :
    filter.lookup hash = .present 0 filter.lastBlock := by
  cases filter with
  | bloom bits lastBlock keyCount => exact wholeTable_of_keyCount h
  | bounds span => exact wholeTable_of_keyCount h
  | hybrid index positionInput =>
      cases positionInput with
      | keyHash => exact lookupAt_of_keyCount h hash
      | ordinal => exact wholeTable_of_keyCount h

/-- A filter of no keys answers every query with the whole table. An answer of absence, on whatever
path, comes from a filter of keys that excludes the hash. Training gives a filter of no keys for no keys
and, as long as their ranks are 32-bit numbers, for nothing else. -/
theorem absent_iff_excludes (filter : TableFilter) :
    (filter.keyCount = 0 → ∀ hash input,
        filter.lookup hash = .present 0 filter.lastBlock ∧
          filter.lookupAt hash input = .present 0 filter.lastBlock) ∧
      (∀ hash, filter.lookup hash = .absent ↔ filter.Excludes hash) ∧
      (∀ hash input, filter.lookupAt hash input = .absent ↔ filter.Excludes hash) ∧
      (∀ hashes blocks totalBlocks config trained,
        train hashes blocks totalBlocks config = .ok trained → config.RanksFit hashes.length →
          trained.keyCount.toNat = min hashes.length (UInt32.size - 1) ∧
            (trained.keyCount = 0 ↔ hashes = [])) ∧
      ∀ totalBlocks config, config.check = .ok () →
        ∃ trained, train [] [] totalBlocks config = .ok trained ∧ trained.keyCount = 0 := by
  refine ⟨?_, ?_, ?_, ?_, ?_⟩
  · intro hKeys hash input
    exact ⟨lookup_of_keyCount hKeys, lookupAt_of_keyCount hKeys input⟩
  · intro hash
    rw [Lookup.eq_absent_iff, isPresent_lookup, mayContain_eq_false_iff]
  · intro hash input
    rw [Lookup.eq_absent_iff, isPresent_lookupAt, mayContain_eq_false_iff]
  · intro hashes blocks totalBlocks config trained hTrain hRanks
    rw [keyCount_of_train hTrain hRanks]
    refine ⟨toNat_ofNatClamp _, ?_, ?_⟩
    · intro hCount
      by_contra hSome
      exact storedCount_ne_zero hSome hCount
    · rintro rfl
      rfl
  · intro totalBlocks config hSettings
    have hTrainable : Trainable [] [] totalBlocks config := ⟨hSettings, rfl, nofun⟩
    obtain ⟨trained, hTrain⟩ := exists_train_iff.mpr hTrainable
    exact ⟨trained, hTrain, keyCount_of_train hTrain fun _ _ => by decide⟩

/-- A span that holds no hash takes one out of a filter of two keys, and not out of a filter of none. -/
theorem absent_iff_excludes_empty_span :
    let ofKeys (keyCount : UInt32) : TableFilter := .bounds ⟨⟨#[0], 7⟩, 9, 3, 5, keyCount⟩
    (ofKeys 0).keyCount = 0 ∧ (ofKeys 0).lookup 4 = .present 0 4 ∧
      (ofKeys 0).lookupAt 4 1 = .present 0 4 ∧ (ofKeys 2).lookup 4 = .absent ∧
      (ofKeys 2).Excludes 4 := by
  intro ofKeys
  have hKeys : (ofKeys 0).keyCount = 0 := rfl
  have hAbsent : (ofKeys 2).lookup 4 = .absent := by decide
  obtain ⟨hLookup, hLookupAt⟩ := (absent_iff_excludes (ofKeys 0)).1 hKeys 4 1
  exact ⟨hKeys, hLookup, hLookupAt, hAbsent, ((absent_iff_excludes (ofKeys 2)).2.1 4).mp hAbsent⟩

end TableFilter

end BlockFilter
