import BlockFilter.TableFilter

/-! What a query answers. Whether it finds a key is settled by the bits, the span and the number of
keys alone; the position model and its input only choose the blocks. -/

namespace BlockFilter

variable {hash : KeyHash}

theorem LearnedIndex.lookupAt_of_mayContain {index : LearnedIndex}
    (h : index.mayContain hash = true) (input : UInt32) :
    index.lookupAt hash input =
      .present (index.predict input).minBlock (index.predict input).maxBlock :=
  if_pos h

namespace TableFilter

variable {filter : TableFilter}

@[simp] theorem isPresent_wholeTable (filter : TableFilter) (hash : KeyHash) :
    (filter.wholeTable hash).isPresent = filter.mayContain hash := by
  rw [wholeTable]
  cases filter.mayContain hash <;> rfl

@[simp] theorem isPresent_lookupAt (filter : TableFilter) (hash : KeyHash) (input : UInt32) :
    (filter.lookupAt hash input).isPresent = filter.mayContain hash := by
  cases filter with
  | hybrid index positionInput =>
      simp only [lookupAt, LearnedIndex.lookupAt, mayContain]
      cases index.mayContain hash <;> rfl
  | bloom bits lastBlock keyCount => exact isPresent_wholeTable ..
  | bounds bounds => exact isPresent_wholeTable ..

@[simp] theorem isPresent_lookup (filter : TableFilter) (hash : KeyHash) :
    (filter.lookup hash).isPresent = filter.mayContain hash := by
  cases filter with
  | hybrid index positionInput =>
      cases positionInput with
      | keyHash => exact isPresent_lookupAt (.hybrid index .keyHash) hash hash
      | ordinal => exact isPresent_wholeTable ..
  | bloom bits lastBlock keyCount => exact isPresent_wholeTable ..
  | bounds bounds => exact isPresent_wholeTable ..

/-- The hash passes on every path that asks for it, whatever the position model is given. -/
structure Admits (filter : TableFilter) (hash : KeyHash) : Prop where
  mayContain : filter.mayContain hash = true
  lookup : (filter.lookup hash).isPresent = true
  lookupAt : ∀ input, (filter.lookupAt hash input).isPresent = true

/-- The paths agree, so one of them decides. -/
theorem admits_iff : filter.Admits hash ↔ filter.mayContain hash = true := by
  constructor
  · intro h
    exact h.mayContain
  · intro h
    refine ⟨h, ?_, fun input => ?_⟩
    · rw [isPresent_lookup, h]
    · rw [isPresent_lookupAt, h]

end TableFilter

end BlockFilter
