import BlockFilter.Proofs.SafeAnswers

/-! The ways to look a hash up. All agree on whether it may be in the table. They differ in the blocks
they name only for an index of ranks, and there a lookup without a rank names every block that a lookup
with one can name. -/

namespace BlockFilter

/-- One answer names every block that another names. -/
structure Lookup.Covers (outer inner : Lookup) : Prop where
  range? : ∀ first last, inner.range? = some (first, last) →
    ∃ outerFirst outerLast, outer.range? = some (outerFirst, outerLast) ∧
      outerFirst ≤ first ∧ last ≤ outerLast
  scanLength : inner.scanLength ≤ outer.scanLength

theorem Lookup.covers_absent (outer : Lookup) : outer.Covers .absent :=
  ⟨nofun, Nat.zero_le _⟩

theorem Lookup.present_covers_present {first last outerLast : UInt32} (h : last ≤ outerLast) :
    (present 0 outerLast).Covers (present first last) where
  range? := by
    intro innerFirst innerLast hRange
    cases hRange
    exact ⟨0, outerLast, rfl, UInt32.zero_le, h⟩
  scanLength := by
    have hNat := UInt32.le_iff_toNat_le.mp h
    simp only [Lookup.scanLength, UInt32.toNat_zero]
    omega

namespace TableFilter

/-- The whole table covers every answer, whatever the model makes of its input. -/
theorem wholeTable_covers_lookupAt (filter : TableFilter) (hash : KeyHash) (input : UInt32) :
    (filter.wholeTable hash).Covers (filter.lookupAt hash input) := by
  have hPresent := filter.isPresent_lookupAt hash input
  have hSound := filter.sound_lookupAt hash input
  rw [wholeTable]
  cases hAnswer : filter.lookupAt hash input with
  | absent => exact Lookup.covers_absent _
  | present first last =>
      rw [hAnswer] at hPresent hSound
      have hMay : filter.mayContain hash = true := hPresent.symm
      rw [if_pos hMay]
      rcases hSound with hNothing | hRange
      · cases hNothing.isPresent
      · exact Lookup.present_covers_present hRange.inTable

/-- Every way to look a hash up agrees on its presence. Only an index of ranks answers with other blocks
when it is given an input, and all of these are blocks of its answer without one. -/
theorem lookups_agree (filter : TableFilter) (hash : KeyHash) (input : UInt32) :
    (filter.lookup hash).isPresent = filter.mayContain hash ∧
      (filter.lookupAt hash input).isPresent = filter.mayContain hash ∧
      match filter with
      | bloom .. => filter.lookupAt hash input = filter.lookup hash
      | bounds span =>
          filter.lookupAt hash input = filter.lookup hash ∧ filter.lookup hash = span.lookup hash
      | hybrid index .keyHash =>
          filter.lookup hash = filter.lookupAt hash hash ∧ filter.lookup hash = index.lookup hash
      | hybrid _ .ordinal => (filter.lookup hash).Covers (filter.lookupAt hash input) := by
  refine ⟨filter.isPresent_lookup hash, filter.isPresent_lookupAt hash input, ?_⟩
  cases filter with
  | bloom bits lastBlock keyCount => rfl
  | bounds span => exact ⟨rfl, rfl⟩
  | hybrid index positionInput =>
      cases positionInput with
      | keyHash => exact ⟨rfl, rfl⟩
      | ordinal => exact wholeTable_covers_lookupAt (.hybrid index .ordinal) hash input

end TableFilter

end BlockFilter
