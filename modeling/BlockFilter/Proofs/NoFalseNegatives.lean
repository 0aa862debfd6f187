import BlockFilter.Proofs.FooterRoundTrip
import BlockFilter.Proofs.Queries
import BlockFilter.Proofs.Training

/-! No false negatives. Training puts every hash into the bit array, and the span of the hashes and
the number of keys let each of them through. A filter that is stored and read back does the same. -/

namespace BlockFilter

variable {hashes : List KeyHash} {hash : KeyHash}

/-! ## The gates of a variant -/

namespace TableFilter

/-- The filter with another bit array. -/
def withMembership (filter : TableFilter) (bits : Bloom) : TableFilter :=
  match filter with
  | bloom _ lastBlock keyCount => bloom bits lastBlock keyCount
  | hybrid index input => hybrid { index with filter := bits } input
  | bounds span => bounds { span with filter := bits }

theorem withMembership_membership (filter : TableFilter) :
    filter.withMembership filter.membership = filter := by
  cases filter <;> rfl

end TableFilter

/-- A hash of the training set lies in the span, so the bits decide. -/
theorem SpanFilter.mayContain_of_train {totalBlocks bitsPerKey : Nat} {bounds : SpanFilter}
    {bits : Bloom} (hTrain : train hashes totalBlocks bitsPerKey = .ok bounds)
    (hMem : hash ∈ hashes) (hBits : bits.mayContain hash = true) :
    ({ bounds with filter := bits } : SpanFilter).mayContain hash = true := by
  obtain ⟨_, _, hSpan⟩ := of_train hTrain
  obtain ⟨hLow, hHigh⟩ := hSpan hash hMem
  simp only [mayContain, hBits, hLow, hHigh, decide_true, Bool.and_self, Bool.or_true]

namespace TableFilter

variable {blocks : List UInt32} {totalBlocks : Nat} {config : Config} {filter : TableFilter}

/-- No gate of a trained variant stops a trained hash that the bits let through. -/
theorem mayContain_withMembership (hTrain : train hashes blocks totalBlocks config = .ok filter)
    (hMem : hash ∈ hashes) {bits : Bloom} (hBits : bits.mayContain hash = true) :
    (filter.withMembership bits).mayContain hash = true := by
  obtain ⟨_, ⟨_, rfl⟩ | ⟨_, rfl⟩ | ⟨_, bounds, rfl, hBounds⟩⟩ := train_cases hTrain
  · rw [withMembership, mayContain, hBits, Bool.or_true]
  · rw [withMembership, mayContain, LearnedIndex.mayContain, hBits, Bool.or_true]
  · exact SpanFilter.mayContain_of_train hBounds hMem hBits

/-! ## The bits -/

theorem mayContain_membership_of_train
    (hTrain : train hashes blocks totalBlocks config = .ok filter) (hMem : hash ∈ hashes) :
    filter.membership.mayContain hash = true := by
  obtain ⟨_, ⟨_, rfl⟩ | ⟨_, rfl⟩ | ⟨_, bounds, rfl, hBounds⟩⟩ := train_cases hTrain
  · exact Bloom.mayContain_insertAll _ hMem
  · exact Bloom.mayContain_insertAll _ hMem
  · obtain ⟨hFilter, _⟩ := SpanFilter.of_train hBounds
    rw [membership, hFilter]
    exact Bloom.mayContain_insertAll _ hMem

theorem mayContain_of_train (hTrain : train hashes blocks totalBlocks config = .ok filter)
    (hMem : hash ∈ hashes) : filter.mayContain hash = true := by
  have hBits := mayContain_membership_of_train hTrain hMem
  rw [← filter.withMembership_membership]
  exact mayContain_withMembership hTrain hMem hBits

/-- No trained hash is ever reported absent, before the filter is stored and after it is read back.
Storing asks for a stored form of 32-bit size, which every bit array below 512 MB leaves. The same
holds with a bit array of any other size and with any number of probes. -/
theorem admits_of_train (hTrain : train hashes blocks totalBlocks config = .ok filter)
    (hSize : filter.sizeBytes < UInt32.size) (hMem : hash ∈ hashes) :
    filter.Admits hash ∧
      (∃ block restored, FooterBlock.encode filter = .ok block ∧
        FooterBlock.decode block = .ok restored ∧ restored.Admits hash) ∧
      ∀ size probes,
        (filter.withMembership ((Bloom.cleared size probes).insertAll hashes)).Admits hash := by
  have hAdmits := admits_iff.mpr (mayContain_of_train hTrain hMem)
  have hBloom := Nat.lt_of_le_of_lt filter.bloomBytes_le_sizeBytes hSize
  have hEncode := FooterBlock.encode_eq_ok_iff.mpr ⟨hBloom, rfl⟩
  have hDecode := FooterBlock.decode_of_encode hEncode hSize
  refine ⟨hAdmits, ⟨_, filter, hEncode, hDecode, hAdmits⟩, ?_⟩
  intro size probes
  have hBits := Bloom.mayContain_insertAll (Bloom.cleared size probes) hMem
  exact admits_iff.mpr (mayContain_withMembership hTrain hMem hBits)

theorem admits_of_train_pair :
    let filter : TableFilter := .bounds ⟨⟨#[128, 2, 0, 0, 0, 0, 0, 0], 7⟩, 7, 9, 4, 2⟩
    train [7, 9] [0, 3] 4 { kind := .bounds, bitsPerKey := some 10 } = .ok filter ∧
      filter.Admits 9 ∧
      (∃ block restored, FooterBlock.encode filter = .ok block ∧
        FooterBlock.decode block = .ok restored ∧ restored.Admits 9) ∧
      ∀ size probes,
        (filter.withMembership ((Bloom.cleared size probes).insertAll [7, 9])).Admits 9 := by
  intro filter
  have hTrain : train [7, 9] [0, 3] 4 { kind := .bounds, bitsPerKey := some 10 } = .ok filter := by
    decide +kernel
  exact ⟨hTrain, admits_of_train hTrain (by decide) (by decide)⟩

end TableFilter

end BlockFilter
