import BlockFilter.Proofs.Training
import BlockFilter.TableKeys

/-! The keys of a table over any sequence of calls that offer one. A call is accepted at the end or
leaves the set as it was, so the blocks never decrease and the last of them is the largest. Training
then succeeds for every table that reaches past the last block, whichever filter is trained. -/

namespace BlockFilter

/-- A call that offers a key and its block to a set, by the hash of the key or by its bytes. -/
inductive Offer where
  | ofHash (hash : KeyHash) (block : UInt32)
  | ofKey (key : Bytes) (block : UInt32)
  deriving DecidableEq, Repr

namespace Offer

def hash : Offer → KeyHash
  | ofHash hash _ => hash
  | ofKey key _ => KeyHash.ofBytes key

def block : Offer → UInt32
  | ofHash _ block => block
  | ofKey _ block => block

end Offer

namespace TableKeys

variable {set next : TableKeys} {offer : Offer} {block : UInt32} {totalBlocks : Nat}
  {config : Config}

/-- The set after a call, and the error of a call that was refused. -/
def take (set : TableKeys) : Offer → TableKeys × Option FilterError
  | .ofHash hash block => set.push hash block
  | .ofKey key block => set.pushKey key block

/-- The set after calls, each made on the set that the one before it left. -/
def takeAll (set : TableKeys) (offers : List Offer) : TableKeys :=
  offers.foldl (fun set offer => (set.take offer).1) set

/-! ## One call -/

/-- What a call may do to a set: put exactly its hash and its block behind the others, or change
nothing and fail with the last accepted block and the smaller one that was offered. -/
inductive Takes (set : TableKeys) (offer : Offer) : TableKeys → Option FilterError → Prop
  | accepted {next : TableKeys} (inOrder : ∀ last ∈ set.blocks.getLast?, last ≤ offer.block)
      (hashes_eq : next.hashes = set.hashes ++ [offer.hash])
      (blocks_eq : next.blocks = set.blocks ++ [offer.block]) : Takes set offer next none
  | refused {last : UInt32} (isLast : set.blocks.getLast? = some last)
      (before : offer.block < last) :
      Takes set offer set (some (.outOfOrder last offer.block))

theorem lastBlock?_eq (set : TableKeys) : set.lastBlock? = set.blocks.getLast? := by
  rw [lastBlock?, blocks, Array.getLast?_toList]

theorem take_eq (set : TableKeys) (offer : Offer) :
    set.take offer = set.push offer.hash offer.block := by
  cases offer with
  | ofHash hash block => rfl
  | ofKey key block => rfl

/-- Every call does the one thing or the other, and the last accepted block decides which. -/
theorem takes_take (set : TableKeys) (offer : Offer) :
    Takes set offer (set.take offer).1 (set.take offer).2 := by
  have hAppend (h : ∀ last ∈ set.blocks.getLast?, last ≤ offer.block) :
      Takes set offer (set.append offer.hash offer.block) none :=
    .accepted h (hashes_append ..) (blocks_append ..)
  simp only [take_eq, push, refusal?, lastBlock?_eq]
  cases hLast : set.blocks.getLast? with
  | none => exact hAppend (by simp [hLast])
  | some last =>
      by_cases hBlock : offer.block < last
      · simp only [if_pos hBlock]
        exact .refused hLast hBlock
      · simp only [if_neg hBlock]
        exact hAppend (by simpa [hLast] using hBlock)

/-- A call without an error has taken its key in. -/
theorem Takes.of_none (h : Takes set offer next none) :
    next.hashes = set.hashes ++ [offer.hash] ∧ next.blocks = set.blocks ++ [offer.block] := by
  cases h with
  | accepted inOrder hashes_eq blocks_eq => exact ⟨hashes_eq, blocks_eq⟩

/-! ## Any calls -/

/-- There is a block for each hash. -/
def Paired (set : TableKeys) : Prop := set.hashes.length = set.blocks.length

theorem paired_empty : empty.Paired := rfl

theorem Takes.paired {error : Option FilterError} (h : Takes set offer next error)
    (hSet : set.Paired) : next.Paired := by
  cases h with
  | refused isLast before => exact hSet
  | accepted inOrder hashes_eq blocks_eq =>
      rw [Paired, hashes_eq, blocks_eq, List.length_append, List.length_append, hSet]
      rfl

theorem Paired.takeAll (h : set.Paired) (offers : List Offer) : (set.takeAll offers).Paired := by
  induction offers generalizing set with
  | nil => exact h
  | cons offer rest ih => exact ih ((takes_take set offer).paired h)

/-- The blocks never decrease. -/
def Ordered (set : TableKeys) : Prop := set.blocks.Pairwise (· ≤ ·)

theorem ordered_empty : empty.Ordered := List.Pairwise.nil

/-- The last of ordered blocks is the largest. -/
theorem Ordered.le_getLast {last : UInt32} (h : set.Ordered)
    (hLast : set.blocks.getLast? = some last) (hMem : block ∈ set.blocks) : block ≤ last := by
  obtain ⟨before, hBlocks⟩ := List.getLast?_eq_some_iff.mp hLast
  rw [Ordered, hBlocks, List.pairwise_append] at h
  rw [hBlocks, List.mem_append, List.mem_singleton] at hMem
  rcases hMem with hBefore | rfl
  · exact h.2.2 block hBefore last (List.mem_singleton_self last)
  · exact UInt32.le_refl _

theorem Takes.ordered {error : Option FilterError} (h : Takes set offer next error)
    (hSet : set.Ordered) : next.Ordered := by
  cases h with
  | refused isLast before => exact hSet
  | accepted inOrder hashes_eq blocks_eq =>
      rw [Ordered, blocks_eq, List.pairwise_append]
      refine ⟨hSet, List.pairwise_singleton .., ?_⟩
      intro block hMem other hOther
      rw [List.mem_singleton.mp hOther]
      cases hLast : set.blocks.getLast? with
      | none => simp [List.getLast?_eq_none_iff.mp hLast] at hMem
      | some last => exact UInt32.le_trans (hSet.le_getLast hLast hMem) (inOrder last hLast)

theorem Ordered.takeAll (h : set.Ordered) (offers : List Offer) : (set.takeAll offers).Ordered := by
  induction offers generalizing set with
  | nil => exact h
  | cons offer rest ih => exact ih ((takes_take set offer).ordered h)

theorem Ordered.blockCount_eq (h : set.Ordered) :
    set.blockCount = (set.blocks.max?.map fun block => block.toNat + 1).getD 0 := by
  rw [blockCount, lastBlock?_eq]
  cases hLast : set.blocks.getLast? with
  | none => rw [List.getLast?_eq_none_iff.mp hLast]; rfl
  | some last =>
      have hMax : set.blocks.max? = some last :=
        List.max?_eq_some_iff.mpr
          ⟨List.mem_of_getLast? hLast, fun _ hMem => h.le_getLast hLast hMem⟩
      rw [hMax]
      rfl

/-- A table reaches past the last block when every block is in it. -/
theorem Ordered.blockCount_le_iff (h : set.Ordered) :
    set.blockCount ≤ totalBlocks ↔ ∀ block ∈ set.blocks, block.toNat < totalBlocks := by
  rw [blockCount, lastBlock?_eq]
  cases hLast : set.blocks.getLast? with
  | none => simp [List.getLast?_eq_none_iff.mp hLast]
  | some last =>
      constructor
      · intro hCount block hMem
        have hLe := UInt32.le_iff_toNat_le.mp (h.le_getLast hLast hMem)
        exact Nat.lt_of_le_of_lt hLe hCount
      · intro hTable
        exact hTable last (List.mem_of_getLast? hLast)

/-! ## Keys in order -/

theorem pushKeys_cons_of_none {key : Bytes} {rest : List (Bytes × UInt32)}
    (h : (set.pushKey key block).2 = none) :
    set.pushKeys ((key, block) :: rest) = (set.pushKey key block).1.pushKeys rest := by
  rw [pushKeys]
  split
  · rename_i hRefused
    rw [hRefused] at h
    cases h
  · rename_i hAccepted
    rw [hAccepted]

theorem pushKeys_cons_of_some {key : Bytes} {rest : List (Bytes × UInt32)} {error : FilterError}
    (h : (set.pushKey key block).2 = some error) :
    set.pushKeys ((key, block) :: rest) = set.pushKey key block := by
  rw [pushKeys]
  split
  · rename_i hRefused
    exact hRefused.symm
  · rename_i hAccepted
    rw [hAccepted] at h
    cases h

/-- A block that is not below the accepted ones is not refused. -/
theorem pushKey_snd_eq_none {key : Bytes} (h : ∀ last ∈ set.blocks, last ≤ block) :
    (set.pushKey key block).2 = none := by
  have hTakes : Takes set (.ofKey key block) (set.pushKey key block).1 (set.pushKey key block).2 :=
    takes_take set (.ofKey key block)
  generalize set.pushKey key block = answer at hTakes
  obtain ⟨next, error⟩ := answer
  cases hTakes with
  | accepted inOrder hashes_eq blocks_eq => rfl
  | @refused last isLast before =>
      exact absurd (h last (List.mem_of_getLast? isLast)) (UInt32.not_le.mpr before)

/-- Keys whose blocks never decrease are all accepted. -/
theorem pushKeys_snd_eq_none {pairs : List (Bytes × UInt32)}
    (h : (set.blocks ++ pairs.map Prod.snd).Pairwise (· ≤ ·)) : (set.pushKeys pairs).2 = none := by
  -- The order covers the accepted blocks and those to come, so it passes from call to call.
  induction pairs generalizing set with
  | nil => rfl
  | cons pair rest ih =>
      obtain ⟨key, block⟩ := pair
      have hBlock : ∀ last ∈ set.blocks, last ≤ block := by
        intro last hMem
        exact (List.pairwise_append.mp h).2.2 last hMem block List.mem_cons_self
      have hNone : (set.pushKey key block).2 = none := pushKey_snd_eq_none hBlock
      have hTakes := takes_take set (.ofKey key block)
      rw [take, hNone] at hTakes
      rw [pushKeys_cons_of_none hNone]
      apply ih
      rw [hTakes.of_none.2, List.append_assoc]
      exact h

/-- Where all keys are accepted they stand at the end in their order, and the blocks still never
decrease. -/
theorem Ordered.of_pushKeys {pairs : List (Bytes × UInt32)} (hSet : set.Ordered)
    (h : set.pushKeys pairs = (next, none)) :
    next.hashes = set.hashes ++ pairs.map (fun pair => KeyHash.ofBytes pair.1) ∧
      next.blocks = set.blocks ++ pairs.map Prod.snd ∧ next.Ordered := by
  induction pairs generalizing set with
  | nil =>
      cases h
      exact ⟨by simp, by simp, hSet⟩
  | cons pair rest ih =>
      obtain ⟨key, block⟩ := pair
      have hTakes := takes_take set (.ofKey key block)
      rw [take] at hTakes
      cases hError : (set.pushKey key block).2 with
      | some error =>
          rw [pushKeys_cons_of_some hError] at h
          rw [h] at hError
          cases hError
      | none =>
          rw [pushKeys_cons_of_none hError] at h
          rw [hError] at hTakes
          obtain ⟨hHashes, hBlocks, hOrdered⟩ := ih (hTakes.ordered hSet) h
          rw [hTakes.of_none.1, List.append_assoc] at hHashes
          rw [hTakes.of_none.2, List.append_assoc] at hBlocks
          exact ⟨hHashes, hBlocks, hOrdered⟩

/-! ## Training -/

/-- The first of the blocks that is outside a table of this size. -/
def FirstOutside (blocks : List UInt32) (totalBlocks : Nat) (block : UInt32) : Prop :=
  ∃ before after, blocks = before ++ block :: after ∧
    (∀ earlier ∈ before, earlier.toNat < totalBlocks) ∧ totalBlocks ≤ block.toNat

theorem trainable_iff (hSettings : config.check = .ok ()) (hPaired : set.Paired)
    (h : set.Ordered) :
    Trainable set.hashes set.blocks totalBlocks config ↔ set.blockCount ≤ totalBlocks := by
  rw [h.blockCount_le_iff]
  constructor
  · intro hTrainable
    exact hTrainable.inTable
  · intro hTable
    exact ⟨hSettings, hPaired, hTable⟩

theorem exists_firstOutside (h : set.Ordered) (hCount : totalBlocks < set.blockCount) :
    ∃ block, FirstOutside set.blocks totalBlocks block := by
  have hSome : ∃ block ∈ set.blocks, totalBlocks ≤ block.toNat := by
    simpa [h.blockCount_le_iff] using Nat.not_le.mpr hCount
  obtain ⟨block, hMem, hBlock⟩ := hSome
  cases hFind : set.blocks.find? fun block => totalBlocks ≤ block.toNat with
  | none =>
      have hNone := List.find?_eq_none.mp hFind block hMem
      simp [hBlock] at hNone
  | some first =>
      obtain ⟨hFirst, before, after, hBlocks, hBefore⟩ := List.find?_eq_some_iff_append.mp hFind
      refine ⟨first, before, after, hBlocks, ?_, by simpa using hFirst⟩
      intro earlier hEarlier
      simpa using hBefore earlier hEarlier

theorem checkAll_of_firstOutside (hSettings : config.check = .ok ()) (hPaired : set.Paired)
    (h : FirstOutside set.blocks totalBlocks block) :
    checkAll set.hashes set.blocks totalBlocks config =
      .error (.trainingSet (.blockOutside block totalBlocks)) := by
  obtain ⟨before, after, hBlocks, hBefore, hBlock⟩ := h
  rw [Paired, hBlocks] at hPaired
  rw [hBlocks]
  exact checkAll_of_outside hSettings hPaired hBefore hBlock

/-- Calls of any number on a set that starts empty. Each next call puts its pair at the end or is
refused, so hashes and blocks stay paired, blocks stay ordered, and the count of blocks is one more
than the largest. With good settings both trainings succeed exactly for tables of at least that many
blocks and otherwise name the first block outside the table. With bad settings they name the fault of
the settings, also on a set of another origin. -/
theorem blockCount_decides_training (offers : List Offer) :
    let set := empty.takeAll offers
    set.hashes.length = set.blocks.length ∧ set.Ordered ∧
      (∀ offer, Takes set offer (set.take offer).1 (set.take offer).2) ∧
      set.blockCount = (set.blocks.max?.map fun block => block.toNat + 1).getD 0 ∧
      (∀ config, config.check = .ok () → ∀ totalBlocks,
        ((∃ filter, set.train totalBlocks config = .ok filter) ↔ set.blockCount ≤ totalBlocks) ∧
        ((∃ index, set.trainHybrid totalBlocks config = .ok index) ↔
          set.blockCount ≤ totalBlocks) ∧
        (totalBlocks < set.blockCount → ∃ block, FirstOutside set.blocks totalBlocks block ∧
          set.train totalBlocks config =
            .error (.trainingSet (.blockOutside block totalBlocks)) ∧
          set.trainHybrid totalBlocks config =
            .error (.trainingSet (.blockOutside block totalBlocks)))) ∧
      ∀ config fault, config.check = .error fault → ∀ (any : TableKeys) totalBlocks,
        any.train totalBlocks config = .error (.config fault) ∧
          any.trainHybrid totalBlocks config = .error (.config fault) := by
  intro set
  have hPaired : set.Paired := paired_empty.takeAll offers
  have hOrdered : set.Ordered := ordered_empty.takeAll offers
  refine ⟨hPaired, hOrdered, takes_take set, hOrdered.blockCount_eq, ?_, ?_⟩
  · intro config hSettings totalBlocks
    have hTrainable : Trainable set.hashes set.blocks totalBlocks config ↔
        set.blockCount ≤ totalBlocks := trainable_iff hSettings hPaired hOrdered
    refine ⟨TableFilter.exists_train_iff.trans hTrainable,
      LearnedIndex.exists_train_iff.trans hTrainable, ?_⟩
    intro hCount
    obtain ⟨block, hBlock⟩ := exists_firstOutside hOrdered hCount
    have hCheck := checkAll_of_firstOutside hSettings hPaired hBlock
    exact ⟨block, hBlock, TableFilter.train_of_fault hCheck, LearnedIndex.train_of_fault hCheck⟩
  · intro config fault hSettings any totalBlocks
    have hCheck : checkAll any.hashes any.blocks totalBlocks config = .error (.config fault) :=
      checkAll_of_settings_fault hSettings
    exact ⟨TableFilter.train_of_fault hCheck, LearnedIndex.train_of_fault hCheck⟩

/-- A key of block 2 is refused after one of block 3, and a table of five blocks ends before the key of
block 5. -/
theorem blockCount_decides_training_refused :
    let set := empty.takeAll [.ofHash 7 3, .ofKey [97] 2, .ofHash 9 5]
    set.blocks = [3, 5] ∧ Takes set (.ofHash 1 4) set (some (.outOfOrder 5 4)) ∧
      ({} : Config).check = .ok () ∧ 5 < set.blockCount ∧
      ∃ block, FirstOutside set.blocks 5 block ∧
        set.train 5 {} = .error (.trainingSet (.blockOutside block 5)) ∧
        set.trainHybrid 5 {} = .error (.trainingSet (.blockOutside block 5)) := by
  intro set
  have hSettings : ({} : Config).check = .ok () := by decide +kernel
  have hCount : 5 < set.blockCount := by decide
  obtain ⟨_, _, hTakes, _, hTrain, _⟩ :=
    blockCount_decides_training [.ofHash 7 3, .ofKey [97] 2, .ofHash 9 5]
  exact ⟨by decide, hTakes (.ofHash 1 4), hSettings, hCount, (hTrain {} hSettings 5).2.2 hCount⟩

end TableKeys

end BlockFilter
