import BlockFilter.Proofs.FailOpen
import BlockFilter.Proofs.NoFalseNegatives

/-! The span of the hashes. Training on some keys takes the least and the largest of their hashes as the
ends of the span and sizes the bit array as for a Bloom filter alone. So the span filter is that Bloom
filter cut down to the span. It admits no hash that the Bloom filter excludes, and both admit every
hash that was trained. -/

namespace BlockFilter

variable {hashes : List KeyHash} {blocks : List UInt32} {totalBlocks : Nat} {config : Config}

/-! ## Ends of a span -/

/-- A running minimum is one of the values that it has passed. -/
theorem foldl_min_mem {α : Type} [Min α] [Std.MinEqOr α] (first : α) (rest : List α) :
    rest.foldl min first ∈ first :: rest :=
  List.min_mem (List.cons_ne_nil first rest)

theorem foldl_max_mem {α : Type} [Max α] [Std.MaxEqOr α] (first : α) (rest : List α) :
    rest.foldl max first ∈ first :: rest :=
  List.max_mem (List.cons_ne_nil first rest)

namespace SpanFilter

/-- The narrowest span around hashes: both of its ends are among them. -/
structure Fits (bounds : SpanFilter) (hashes : List KeyHash) : Prop where
  minHash_mem : bounds.minHash ∈ hashes
  maxHash_mem : bounds.maxHash ∈ hashes
  between : ∀ hash ∈ hashes, bounds.minHash ≤ hash ∧ hash ≤ bounds.maxHash

/-- Only a table without keys gets the widest span in place of the narrowest. -/
theorem fits_of_train {bitsPerKey : Nat} {bounds : SpanFilter} (hKeys : hashes ≠ [])
    (h : train hashes totalBlocks bitsPerKey = .ok bounds) : bounds.Fits hashes := by
  obtain ⟨_, _, hBetween⟩ := of_train h
  cases hashes with
  | nil => exact absurd rfl hKeys
  | cons first rest =>
      simp only [train] at h
      split at h
      · cases h
      · cases h
        exact ⟨foldl_min_mem first rest, foldl_max_mem first rest, hBetween⟩

end SpanFilter

namespace TableFilter

/-! ## Variants of one table -/

/-- The checks do not ask which variant is trained. -/
theorem exists_train_of_kind {filter : TableFilter} {first : FilterKind} (second : FilterKind)
    (h : train hashes blocks totalBlocks { config with kind := first } = .ok filter) :
    ∃ other, train hashes blocks totalBlocks { config with kind := second } = .ok other := by
  obtain ⟨hTrainable, _⟩ := train_cases h
  exact exists_train_iff.mpr ⟨hTrainable.settings, hTrainable.paired, hTrainable.inTable⟩

theorem keyCount_ne_zero_of_train {filter : TableFilter} (hKeys : hashes ≠ [])
    (h : train hashes blocks totalBlocks config = .ok filter)
    (hRanks : config.RanksFit hashes.length) : filter.keyCount ≠ 0 := by
  rw [keyCount_of_train h hRanks]
  exact storedCount_ne_zero hKeys

/-- In a filter of some keys the bits and the span both have to let a hash through. -/
theorem mayContain_iff_of_keyCount {filter : TableFilter} (hKeys : filter.keyCount ≠ 0)
    (hash : KeyHash) : filter.mayContain hash = true ↔
      filter.inSpan hash = true ∧ filter.membership.mayContain hash = true := by
  have hCount : (filter.keyCount == 0) = false := beq_eq_false_iff_ne.mpr hKeys
  rw [mayContain_eq, hCount, Bool.false_or, Bool.and_eq_true]

theorem inSpan_bounds_iff {span : SpanFilter} {hash : KeyHash} :
    (bounds span).inSpan hash = true ↔ span.minHash ≤ hash ∧ hash ≤ span.maxHash := by
  rw [inSpan, Bool.and_eq_true, decide_eq_true_eq, decide_eq_true_eq]

/-- Where a Bloom filter can be trained on some keys, so can a span filter with the same settings. It has
the bits and the probes of the Bloom filter and the narrowest span around the hashes, and it admits
the hashes of this span that the Bloom filter admits. -/
theorem bounds_narrows_bloom {plain : TableFilter} (hKeys : hashes ≠ [])
    (hPlain : train hashes blocks totalBlocks { config with kind := .bloom } = .ok plain) :
    plain.kind = .bloom ∧
      ∃ span, train hashes blocks totalBlocks { config with kind := .bounds } =
          .ok (.bounds span) ∧
        span.filter = plain.membership ∧ span.Fits hashes ∧
        (∀ hash, (bounds span).mayContain hash = true ↔
          plain.mayContain hash = true ∧ span.minHash ≤ hash ∧ hash ≤ span.maxHash) ∧
        ∀ hash ∈ hashes, plain.mayContain hash = true ∧ (bounds span).mayContain hash = true := by
  obtain ⟨narrow, hNarrow⟩ := exists_train_of_kind .bounds hPlain
  have hPlainKeys := keyCount_ne_zero_of_train hKeys hPlain nofun
  have hNarrowKeys := keyCount_ne_zero_of_train hKeys hNarrow nofun
  have hTrained : ∀ hash ∈ hashes, plain.mayContain hash = true ∧ narrow.mayContain hash = true :=
    fun _ hMem => ⟨mayContain_of_train hPlain hMem, mayContain_of_train hNarrow hMem⟩
  obtain ⟨_, ⟨_, rfl⟩ | ⟨hKind, _⟩ | ⟨hKind, _⟩⟩ := train_cases hPlain
  · obtain ⟨_, ⟨hKind, _⟩ | ⟨hKind, _⟩ | ⟨_, span, rfl, hSpan⟩⟩ := train_cases hNarrow
    · cases hKind
    · cases hKind
    · obtain ⟨hBits, _⟩ := SpanFilter.of_train hSpan
      refine ⟨rfl, span, hNarrow, hBits, SpanFilter.fits_of_train hKeys hSpan, ?_, hTrained⟩
      intro hash
      -- Both filters ask the same bits, so only the span tells them apart.
      have hSame : (bounds span).membership = Bloom.ofBudget hashes config.budget := hBits
      rw [mayContain_iff_of_keyCount hNarrowKeys, mayContain_iff_of_keyCount hPlainKeys, hSame,
        inSpan_bounds_iff]
      exact ⟨fun h => ⟨⟨rfl, h.2⟩, h.1⟩, fun h => ⟨h.2, h.1.2⟩⟩
  · cases hKind
  · cases hKind

/-- With one probe into 64 bits the Bloom filter of 7 and 9 admits 73, which the span excludes. -/
theorem bounds_narrows_bloom_collision :
    let plain : TableFilter := .bloom ⟨#[128, 2, 0, 0, 0, 0, 0, 0], 1⟩ 1 3
    let config : Config := { bitsPerKey := some 1 }
    [9, 7, 9] ≠ ([] : List KeyHash) ∧
      train [9, 7, 9] [0, 0, 1] 2 { config with kind := .bloom } = .ok plain ∧
      plain.kind = .bloom ∧
      ∃ span, train [9, 7, 9] [0, 0, 1] 2 { config with kind := .bounds } = .ok (.bounds span) ∧
        span.filter = plain.membership ∧ span.Fits [9, 7, 9] ∧
        plain.mayContain 73 = true ∧ (bounds span).mayContain 73 = false ∧
        (bounds span).mayContain 7 = true := by
  intro plain config
  have hKeys : [9, 7, 9] ≠ ([] : List KeyHash) := List.cons_ne_nil _ _
  have hPlain : train [9, 7, 9] [0, 0, 1] 2 { config with kind := .bloom } = .ok plain := by
    decide +kernel
  have hCollision : plain.mayContain 73 = true := by decide +kernel
  obtain ⟨hKind, span, hSpan, hBits, hFits, hCut, hTrained⟩ := bounds_narrows_bloom hKeys hPlain
  refine ⟨hKeys, hPlain, hKind, span, hSpan, hBits, hFits, hCollision, ?_, ?_⟩
  · have hAbove : ¬73 ≤ span.maxHash := by
      have hMem := hFits.maxHash_mem
      simp only [List.mem_cons, List.not_mem_nil, or_false] at hMem
      rcases hMem with hMax | hMax | hMax <;> rw [hMax] <;> decide
    rw [← Bool.not_eq_true, hCut]
    exact fun h => hAbove h.2.2
  · exact (hTrained 7 (by decide)).2

end TableFilter

end BlockFilter
