import BlockFilter.Proofs.BitArray
import BlockFilter.Proofs.Outcomes
import BlockFilter.TableFilter

/-! What a successful training has checked and what it returns. Settings and keys pass the same
checks for every variant, and each variant then keeps the bit array of the hashes, the size of the
table and the number of keys. -/

namespace BlockFilter

/-! ## Checks -/

theorem toNat_lastOrdinal (totalBlocks : Nat) :
    (lastOrdinal totalBlocks).toNat = min (totalBlocks - 1) (UInt32.size - 1) :=
  toNat_ofNatClamp _

/-- A block of the table is not past its last ordinal, even where the ordinal is cut down to the
32-bit range. -/
theorem le_lastOrdinal {block : UInt32} {totalBlocks : Nat} (h : block.toNat < totalBlocks) :
    block ≤ lastOrdinal totalBlocks := by
  have hWord := block.toNat_lt_size
  rw [UInt32.le_iff_toNat_le, toNat_lastOrdinal]
  omega

/-- Only a table without keys has no keys in store. -/
theorem storedCount_ne_zero {α : Type} {keys : List α} (h : keys ≠ []) : storedCount keys ≠ 0 := by
  have hLength := List.length_pos_iff.mpr h
  rw [Ne, ← UInt32.toNat_inj, storedCount, toNat_ofNatClamp]
  simp only [UInt32.size, UInt32.toNat_zero]
  omega

/-- Every key has a rank of 32 bits, if it is the ranks that a position model takes. -/
def Config.RanksFit (config : Config) (keys : Nat) : Prop :=
  config.kind = .hybrid → config.positionInput = .ordinal → keys < UInt32.size

/-- Settings and keys that pass every check before training. -/
structure Trainable (hashes : List KeyHash) (blocks : List UInt32) (totalBlocks : Nat)
    (config : Config) : Prop where
  settings : config.check = .ok ()
  paired : hashes.length = blocks.length
  inTable : ∀ block ∈ blocks, block.toNat < totalBlocks

theorem checkTraining_eq_ok_iff (hashes : List KeyHash) (blocks : List UInt32) (totalBlocks : Nat) :
    checkTraining hashes blocks totalBlocks = .ok () ↔
      hashes.length = blocks.length ∧ ∀ block ∈ blocks, block.toNat < totalBlocks := by
  rw [checkTraining]
  by_cases hPaired : hashes.length = blocks.length
  · rw [if_neg (not_not_intro hPaired)]
    cases hFind : blocks.find? fun block => totalBlocks ≤ block.toNat with
    | none => simpa [hPaired] using hFind
    | some block =>
        have hOutside := List.find?_some hFind
        have hMem := List.mem_of_find?_eq_some hFind
        simp only [decide_eq_true_eq] at hOutside
        exact ⟨nofun, fun h => absurd (h.2 block hMem) (Nat.not_lt_of_le hOutside)⟩
  · rw [if_pos hPaired]
    exact ⟨nofun, fun h => absurd h.1 hPaired⟩

theorem checkAll_eq_ok_iff (hashes : List KeyHash) (blocks : List UInt32) (totalBlocks : Nat)
    (config : Config) :
    checkAll hashes blocks totalBlocks config = .ok () ↔
      Trainable hashes blocks totalBlocks config := by
  simp only [checkAll, bind_eq_ok_iff, mapError_eq_ok_iff, checkTraining_eq_ok_iff]
  constructor
  · intro h
    obtain ⟨_, hSettings, hPaired, hInTable⟩ := h
    exact ⟨hSettings, hPaired, hInTable⟩
  · intro h
    exact ⟨(), h.settings, h.paired, h.inTable⟩

theorem checkAll_of_settings_fault {hashes : List KeyHash} {blocks : List UInt32}
    {totalBlocks : Nat} {config : Config} {fault : ConfigFault}
    (hSettings : config.check = .error fault) :
    checkAll hashes blocks totalBlocks config = .error (.config fault) := by
  rw [checkAll, hSettings]
  rfl

/-- With good settings and a block for each hash, the first block outside the table is at fault. -/
theorem checkAll_of_outside {hashes : List KeyHash} {before after : List UInt32} {block : UInt32}
    {totalBlocks : Nat} {config : Config} (hSettings : config.check = .ok ())
    (hPaired : hashes.length = (before ++ block :: after).length)
    (hBefore : ∀ earlier ∈ before, earlier.toNat < totalBlocks)
    (hBlock : totalBlocks ≤ block.toNat) :
    checkAll hashes (before ++ block :: after) totalBlocks config =
      .error (.trainingSet (.blockOutside block totalBlocks)) := by
  have hFind : (before ++ block :: after).find? (fun block => totalBlocks ≤ block.toNat) =
      some block := by
    rw [List.find?_eq_some_iff_append]
    exact ⟨decide_eq_true hBlock, before, after, rfl, fun earlier hMem => by
      simpa using hBefore earlier hMem⟩
  rw [checkAll, hSettings, checkTraining, if_neg (not_not_intro hPaired), hFind]
  rfl

/-! ## Results -/

/-- A running minimum ends below the first value and below every later one. -/
theorem foldl_min_le_of_mem {α : Type} [Min α] [LE α] [Std.IsLinearOrder α] [Std.LawfulOrderMin α]
    {first a : α} {rest : List α} (h : a ∈ first :: rest) : rest.foldl min first ≤ a :=
  List.min_le_of_mem h

theorem le_foldl_max_of_mem {α : Type} [Max α] [LE α] [Std.IsLinearOrder α] [Std.LawfulOrderMax α]
    {first a : α} {rest : List α} (h : a ∈ first :: rest) : a ≤ rest.foldl max first :=
  List.le_max_of_mem h

/-- The larger of two words is one of them, and no other upper bound lies below it. -/
instance lawfulOrderMaxWord : Std.LawfulOrderMax UInt32 where
  max_eq_or a b := by
    by_cases h : a ≤ b
    · exact .inr (if_pos h)
    · exact .inl (if_neg h)
  max_le_iff a b c := by
    change (if a ≤ b then b else a) ≤ c ↔ a ≤ c ∧ b ≤ c
    simp only [UInt32.le_iff_toNat_le]
    split <;> omega

namespace FittedLine

/-- Every line ends at the last ordinal, also those of no key and of one key. -/
theorem lastBlock_train (inputs blocks : List UInt32) (totalBlocks : Nat) :
    (train inputs blocks totalBlocks).lastBlock = lastOrdinal totalBlocks := by
  rw [train]
  split
  · rfl
  · rfl
  · rw [fit, boundErrors]

end FittedLine

namespace SpanFilter

/-- What training on checked keys keeps. The span holds every hash. -/
theorem of_train {hashes : List KeyHash} {totalBlocks bitsPerKey : Nat} {bounds : SpanFilter}
    (h : train hashes totalBlocks bitsPerKey = .ok bounds) :
    bounds.filter = Bloom.ofBudget hashes bitsPerKey ∧
      bounds.numBlocks = UInt32.ofNatClamp totalBlocks ∧
      ∀ hash ∈ hashes, bounds.minHash ≤ hash ∧ hash ≤ bounds.maxHash := by
  cases hashes with
  | nil =>
      cases h
      exact ⟨rfl, rfl, fun _ hMem => by cases hMem⟩
  | cons first rest =>
      simp only [train] at h
      split at h
      · cases h
      · cases h
        exact ⟨rfl, rfl, fun hash hMem => ⟨foldl_min_le_of_mem hMem, le_foldl_max_of_mem hMem⟩⟩

/-- The blocks of keys lie in the table, so a table with keys has blocks. -/
theorem exists_train {hashes : List KeyHash} {blocks : List UInt32} {totalBlocks : Nat}
    {config : Config} (bitsPerKey : Nat) (h : Trainable hashes blocks totalBlocks config) :
    ∃ bounds, train hashes totalBlocks bitsPerKey = .ok bounds := by
  cases hashes with
  | nil => exact ⟨_, rfl⟩
  | cons first rest =>
      obtain ⟨block, hBlock⟩ : ∃ block, block ∈ blocks := by
        apply List.exists_mem_of_length_pos
        rw [← h.paired, List.length_cons]
        exact Nat.succ_pos _
      have hBlocks : totalBlocks ≠ 0 := Nat.ne_zero_of_lt (h.inTable block hBlock)
      exact ⟨_, if_neg hBlocks⟩

end SpanFilter

namespace TableFilter

variable {hashes : List KeyHash} {blocks : List UInt32} {totalBlocks : Nat} {config : Config}
  {filter : TableFilter}

/-- A training that succeeds has passed the checks and returns the variant of the settings. -/
theorem train_cases (h : train hashes blocks totalBlocks config = .ok filter) :
    Trainable hashes blocks totalBlocks config ∧
      (config.kind = .bloom ∧ filter = .bloom (Bloom.ofBudget hashes config.budget)
          (lastOrdinal totalBlocks) (storedCount hashes) ∨
        config.kind = .hybrid ∧ filter = .hybrid
          (LearnedIndex.fit hashes blocks totalBlocks config) config.positionInput ∨
        config.kind = .bounds ∧ ∃ bounds, filter = .bounds bounds ∧
          SpanFilter.train hashes totalBlocks config.budget = .ok bounds) := by
  rw [train, bind_eq_ok_iff] at h
  obtain ⟨_, hCheck, h⟩ := h
  refine ⟨(checkAll_eq_ok_iff ..).mp hCheck, ?_⟩
  cases hKind : config.kind with
  | bloom =>
      simp only [hKind] at h
      cases h
      exact .inl ⟨rfl, rfl⟩
  | hybrid =>
      simp only [hKind] at h
      cases h
      exact .inr (.inl ⟨rfl, rfl⟩)
  | bounds =>
      simp only [hKind, mapError_eq_ok_iff, map_eq_ok_iff] at h
      obtain ⟨bounds, hBounds, rfl⟩ := h
      exact .inr (.inr ⟨rfl, bounds, rfl, hBounds⟩)

theorem train_of_fault {error : FilterError}
    (h : checkAll hashes blocks totalBlocks config = .error error) :
    train hashes blocks totalBlocks config = .error error := by
  rw [train, h]
  rfl

/-- The checks are all that can fail. The span filter's own check for a table without blocks finds
nothing left, because the keys of such a table have their blocks outside it. -/
theorem exists_train_iff :
    (∃ filter, train hashes blocks totalBlocks config = .ok filter) ↔
      Trainable hashes blocks totalBlocks config := by
  constructor
  · intro h
    obtain ⟨_, hTrain⟩ := h
    exact (train_cases hTrain).1
  · intro h
    rw [train, (checkAll_eq_ok_iff ..).mpr h]
    cases config.kind with
    | bloom => exact ⟨_, rfl⟩
    | hybrid => exact ⟨_, rfl⟩
    | bounds =>
        obtain ⟨bounds, hBounds⟩ := SpanFilter.exists_train config.budget h
        refine ⟨.bounds bounds, ?_⟩
        simp only [hBounds]
        rfl

end TableFilter

namespace LearnedIndex

variable {hashes : List KeyHash} {blocks : List UInt32} {totalBlocks : Nat} {config : Config}

theorem train_of_fault {error : FilterError}
    (h : checkAll hashes blocks totalBlocks config = .error error) :
    train hashes blocks totalBlocks config = .error error := by
  rw [train, h]
  rfl

theorem exists_train_iff :
    (∃ index, train hashes blocks totalBlocks config = .ok index) ↔
      Trainable hashes blocks totalBlocks config := by
  rw [← checkAll_eq_ok_iff]
  constructor
  · intro h
    obtain ⟨_, hTrain⟩ := h
    obtain ⟨_, hCheck, _⟩ := bind_eq_ok_iff.mp hTrain
    exact hCheck
  · intro h
    exact ⟨_, bind_eq_ok_iff.mpr ⟨(), h, rfl⟩⟩

end LearnedIndex

end BlockFilter
