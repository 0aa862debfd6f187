import BlockFilter.CommandLine.Run
import BlockFilter.Proofs.KeyTexts
import BlockFilter.Proofs.NoFalseNegatives
import BlockFilter.Proofs.Paths
import BlockFilter.Proofs.SortedBlocks

/-! Building a filter from a file of keys. The keys are the lines of the file in byte order, and each
goes to the block that its rank gives. So the calls that offer them are all accepted, the table reaches
just past the last block, and training and storing succeed. What is written and printed depends on the
set of lines alone, and every line is found again in the file that was written. -/

namespace BlockFilter

/-! ## Sizes -/

/-- Bytes of the bit array that training on a number of keys makes. -/
def Config.bitArrayBytes (config : Config) (keys : Nat) : Nat :=
  match config.kind with
  | .hybrid => max config.bloomBytes minBloomBytes
  | .bloom | .bounds =>
      let numBits := keys * max config.budget 1
      ceilDiv (max (min numBits (UInt64.size - 1)) (8 * minBloomBytes)) 8

namespace TableFilter

variable {hashes : List KeyHash} {blocks : List UInt32} {totalBlocks : Nat} {config : Config}
  {filter : TableFilter}

theorem bloomBytes_of_train (hTrain : train hashes blocks totalBlocks config = .ok filter) :
    filter.bloomBytes = config.bitArrayBytes hashes.length := by
  obtain ⟨_, ⟨hKind, rfl⟩ | ⟨hKind, rfl⟩ | ⟨hKind, bounds, rfl, hBounds⟩⟩ := train_cases hTrain
  · rw [Config.bitArrayBytes, hKind, bloomBytes, membership, Bloom.sizeBytes_ofBudget]
  · rw [Config.bitArrayBytes, hKind, bloomBytes, membership, LearnedIndex.fit,
      Bloom.sizeBytes_ofSize]
  · obtain ⟨hFilter, _⟩ := SpanFilter.of_train hBounds
    rw [Config.bitArrayBytes, hKind, bloomBytes, membership, hFilter, Bloom.sizeBytes_ofBudget]

theorem kind_of_train (hTrain : train hashes blocks totalBlocks config = .ok filter) :
    filter.kind = config.kind := by
  obtain ⟨_, ⟨hKind, rfl⟩ | ⟨hKind, rfl⟩ | ⟨hKind, bounds, rfl, _⟩⟩ := train_cases hTrain
  · exact hKind.symm
  · exact hKind.symm
  · exact hKind.symm

theorem sizeBytes_of_train (hTrain : train hashes blocks totalBlocks config = .ok filter) :
    filter.sizeBytes = config.bitArrayBytes hashes.length + config.kind.trailerBytes := by
  rw [sizeBytes_eq, bloomBytes_of_train hTrain, kind_of_train hTrain]

end TableFilter

/-- The learned index has the longest trailer. -/
theorem FilterKind.trailerBytes_le (kind : FilterKind) :
    kind.trailerBytes ≤ LearnedIndex.trailerBytes := by
  cases kind <;> decide

/-! ## Keys in their blocks -/

/-- Ranks below a number lie in blocks below the number of blocks. -/
theorem div_lt_ceilDiv {rank count keysPerBlock : Nat} (hRank : rank < count)
    (hPositive : 0 < keysPerBlock) : rank / keysPerBlock < ceilDiv count keysPerBlock := by
  calc rank / keysPerBlock
      < rank / keysPerBlock + 1 := Nat.lt_succ_self _
    _ = (rank + keysPerBlock) / keysPerBlock := (Nat.add_div_right rank hPositive).symm
    _ ≤ (count + keysPerBlock - 1) / keysPerBlock := Nat.div_le_div_right (by omega)

/-- The blocks of a number of ranks. -/
def rankBlocks (keysPerBlock count : Nat) : List UInt32 :=
  (List.range count).map fun rank => UInt32.ofNat (rank / keysPerBlock)

section Ranks

variable {keysPerBlock count : Nat}

@[simp] theorem length_rankBlocks : (rankBlocks keysPerBlock count).length = count := by
  simp [rankBlocks]

theorem toNat_rankBlock {rank : Nat} (hCount : count < UInt32.size) (hRank : rank < count) :
    (UInt32.ofNat (rank / keysPerBlock)).toNat = rank / keysPerBlock := by
  apply UInt32.toNat_ofNat_of_lt'
  exact Nat.lt_of_le_of_lt (Nat.div_le_self rank keysPerBlock) (Nat.lt_trans hRank hCount)

/-- No block wraps round while ranks are 32-bit numbers. -/
theorem map_toNat_rankBlocks (hCount : count < UInt32.size) :
    (rankBlocks keysPerBlock count).map UInt32.toNat =
      (List.range count).map fun rank => rank / keysPerBlock := by
  rw [rankBlocks, List.map_map]
  apply List.map_congr_left
  intro rank hRank
  exact toNat_rankBlock hCount (List.mem_range.mp hRank)

/-- The block after the last 32-bit number would be block zero, behind the block before it. So blocks
that never decrease have not wrapped round. -/
theorem map_toNat_rankBlocks_of_pairwise (hPositive : 0 < keysPerBlock)
    (hOrder : (rankBlocks keysPerBlock count).Pairwise (· ≤ ·)) :
    (rankBlocks keysPerBlock count).map UInt32.toNat =
      (List.range count).map fun rank => rank / keysPerBlock := by
  have hFit : count ≤ keysPerBlock * UInt32.size := by
    by_contra hMany
    rw [Nat.not_le] at hMany
    have hLess : keysPerBlock * (UInt32.size - 1) < keysPerBlock * UInt32.size :=
      Nat.mul_lt_mul_of_pos_left (Nat.sub_lt (by decide) Nat.zero_lt_one) hPositive
    rw [rankBlocks, List.pairwise_map, List.pairwise_iff_getElem] at hOrder
    -- The first ranks of the last block and of the one that wraps round.
    have hStep := hOrder (keysPerBlock * (UInt32.size - 1)) (keysPerBlock * UInt32.size)
      (by rw [List.length_range]; exact Nat.lt_trans hLess hMany)
      (by rw [List.length_range]; exact hMany) hLess
    rw [List.getElem_range, List.getElem_range, Nat.mul_div_cancel_left _ hPositive,
      Nat.mul_div_cancel_left _ hPositive] at hStep
    exact absurd hStep (by decide)
  rw [rankBlocks, List.map_map]
  apply List.map_congr_left
  intro rank hRank
  apply UInt32.toNat_ofNat_of_lt'
  exact Nat.div_lt_of_lt_mul (Nat.lt_of_lt_of_le (List.mem_range.mp hRank) hFit)

theorem pairwise_rankBlocks (hCount : count < UInt32.size) :
    (rankBlocks keysPerBlock count).Pairwise (· ≤ ·) := by
  rw [rankBlocks, List.pairwise_map]
  apply List.pairwise_lt_range.imp_of_mem
  intro rank next hRank hNext hLess
  rw [UInt32.le_iff_toNat_le, toNat_rankBlock hCount (List.mem_range.mp hRank),
    toNat_rankBlock hCount (List.mem_range.mp hNext)]
  exact Nat.div_le_div_right (Nat.le_of_lt hLess)

theorem rankBlocks_inTable (hCount : count < UInt32.size) (hPositive : 0 < keysPerBlock) :
    ∀ block ∈ rankBlocks keysPerBlock count, block.toNat < ceilDiv count keysPerBlock := by
  intro block hMem
  obtain ⟨rank, hRank, rfl⟩ := List.mem_map.mp hMem
  rw [List.mem_range] at hRank
  rw [toNat_rankBlock hCount hRank]
  exact div_lt_ceilDiv hRank hPositive

theorem map_fst_inBlocks (keys : List Bytes) :
    (KeyFile.inBlocks keysPerBlock keys).map (fun pair => KeyHash.ofBytes pair.1) =
      keys.map KeyHash.ofBytes := by
  rw [KeyFile.inBlocks, List.map_map, ← List.zipIdx_map_fst 0 keys, List.map_map]
  simp [Function.comp_def]

theorem map_snd_inBlocks (keys : List Bytes) :
    (KeyFile.inBlocks keysPerBlock keys).map Prod.snd = rankBlocks keysPerBlock keys.length := by
  rw [KeyFile.inBlocks, List.map_map, rankBlocks, List.range_eq_range', ← List.zipIdx_map_snd 0 keys,
    List.map_map]
  rfl

/-- What has been accepted once no key was refused. -/
theorem TableKeys.of_pushKeys_inBlocks {keys : List Bytes} {set : TableKeys}
    (h : empty.pushKeys (KeyFile.inBlocks keysPerBlock keys) = (set, none)) :
    set.hashes = keys.map KeyHash.ofBytes ∧ set.blocks = rankBlocks keysPerBlock keys.length ∧
      set.Ordered := by
  obtain ⟨hHashes, hBlocks, hOrdered⟩ := ordered_empty.of_pushKeys h
  rw [map_fst_inBlocks] at hHashes
  rw [map_snd_inBlocks] at hBlocks
  exact ⟨hHashes, hBlocks, hOrdered⟩

/-- Every key is accepted, once and in its block. -/
theorem TableKeys.pushKeys_inBlocks (keysPerBlock : Nat) {keys : List Bytes}
    (hCount : keys.length < UInt32.size) :
    ∃ set, empty.pushKeys (KeyFile.inBlocks keysPerBlock keys) = (set, none) ∧
      set.hashes = keys.map KeyHash.ofBytes ∧
      set.blocks = rankBlocks keysPerBlock keys.length := by
  have hOrder : (empty.blocks ++
      (KeyFile.inBlocks keysPerBlock keys).map Prod.snd).Pairwise (· ≤ ·) := by
    rw [map_snd_inBlocks]
    exact pairwise_rankBlocks hCount
  have hPush : empty.pushKeys (KeyFile.inBlocks keysPerBlock keys) = (_, none) :=
    Prod.ext rfl (pushKeys_snd_eq_none hOrder)
  obtain ⟨hHashes, hBlocks, _⟩ := of_pushKeys_inBlocks hPush
  exact ⟨_, hPush, hHashes, hBlocks⟩

end Ranks

/-! ## Builds -/

namespace CommandLine

/-- The blocks take `keysPerBlock` keys each, and never none. -/
def BuildOptions.blockKeys (options : BuildOptions) : Nat := max options.keysPerBlock 1

/-- The number of blocks of a table of this many keys. -/
def BuildOptions.totalBlocks (options : BuildOptions) (keys : Nat) : Nat :=
  ceilDiv keys options.blockKeys

/-- A filter and its footer block, made of keys in their order. Each key is trained once, and its block
is its rank divided by the number of keys that a block takes. -/
structure BuildOptions.Makes (options : BuildOptions) (keys : List Bytes) (filter : TableFilter)
    (block : Bytes) : Prop where
  trained : ∃ blocks : List UInt32,
    blocks.map UInt32.toNat = (List.range keys.length).map (fun rank => rank / options.blockKeys) ∧
      TableFilter.train (keys.map KeyHash.ofBytes) blocks (options.totalBlocks keys.length)
        options.config = .ok filter
  stored : FooterBlock.encode filter = .ok block

/-- What a build reports until it writes. -/
def BuildOptions.trainEvents (options : BuildOptions) (keys : List Bytes) (filter : TableFilter) :
    List Event :=
  .trainingStarted options.config.kind keys.length (options.totalBlocks keys.length) ::
    TableFilter.trainEvents (keys.map KeyHash.ofBytes) (options.totalBlocks keys.length)
      options.config (.ok filter)

/-- The report of a build that has written its file. -/
def BuildOptions.report (options : BuildOptions) (keys : List Bytes) (filter : TableFilter) :
    Report where
  exitCode := 0
  output := filter.stats.report ++ "\n"
  events := options.trainEvents keys filter ++ [.fileWritten options.output]

/-- The report of a build once its write has succeeded or failed. -/
def BuildOptions.outcome (options : BuildOptions) (keys : List Bytes) (filter : TableFilter) :
    Except FileFault Unit → Report
  | .ok () => options.report keys filter
  | .error fault => Report.failure (options.trainEvents keys filter) (.file fault)

variable {options : BuildOptions} {directory after : Directory} {contents block : Bytes}
  {keys : List Bytes} {filter : TableFilter}

section Trained

variable {set : TableKeys}

/-- Once its keys are accepted, a build trains, stores and writes. -/
theorem BuildOptions.act_of_accepted (hSettings : options.config.check = .ok ())
    (hKeys : KeyFile.keys? contents = some keys)
    (hPush : TableKeys.empty.pushKeys (KeyFile.inBlocks options.blockKeys keys) = (set, none)) :
    options.act (.ok contents) = (do
      let filter ← (set.train (options.totalBlocks keys.length) options.config).mapError
        (Report.failure [.trainingStarted options.config.kind keys.length
          (options.totalBlocks keys.length)])
      let block ← (FooterBlock.encode filter).mapError
        (Report.failure (options.trainEvents keys filter))
      return .save options.output block (options.outcome keys filter)) := by
  have hHashes := (TableKeys.of_pushKeys_inBlocks hPush).1
  rw [blockKeys] at hPush
  simp only [act, hSettings, hKeys, hPush, Except.mapError, bind, Except.bind]
  rw [hHashes]
  rfl

/-- What was trained is a filter of the keys in the blocks of their ranks, also where ranks are not
32-bit numbers: a block that wrapped round would not have been accepted. -/
theorem BuildOptions.makes_of_trained
    (hPush : TableKeys.empty.pushKeys (KeyFile.inBlocks options.blockKeys keys) = (set, none))
    (hTrain : set.train (options.totalBlocks keys.length) options.config = .ok filter)
    (hStored : FooterBlock.encode filter = .ok block) : options.Makes keys filter block := by
  have hPositive : 0 < options.blockKeys := Nat.le_max_right ..
  obtain ⟨hHashes, hBlocks, hOrdered⟩ := TableKeys.of_pushKeys_inBlocks hPush
  rw [TableKeys.Ordered, hBlocks] at hOrdered
  rw [TableKeys.train, hHashes, hBlocks] at hTrain
  exact ⟨⟨_, map_toNat_rankBlocks_of_pairwise hPositive hOrdered, hTrain⟩, hStored⟩

end Trained

namespace BuildOptions.Makes

/-- A build hands the keys to training in the blocks of their ranks. -/
theorem train_rankBlocks (h : options.Makes keys filter block)
    (hCount : keys.length < UInt32.size) :
    TableFilter.train (keys.map KeyHash.ofBytes) (rankBlocks options.blockKeys keys.length)
      (options.totalBlocks keys.length) options.config = .ok filter := by
  obtain ⟨blocks, hBlocks, hTrain⟩ := h.trained
  rw [← map_toNat_rankBlocks hCount] at hBlocks
  have hSame : blocks = rankBlocks options.blockKeys keys.length :=
    List.map_injective_iff.mpr (fun _ _ => UInt32.toNat_inj.mp) hBlocks
  rw [← hSame]
  exact hTrain

/-- What a build does with a file of keys once its filter can be trained and stored. -/
theorem act_eq (h : options.Makes keys filter block) (hSettings : options.config.check = .ok ())
    (hKeys : KeyFile.keys? contents = some keys) (hCount : keys.length < UInt32.size) :
    options.act (.ok contents) =
      .ok (.save options.output block (options.outcome keys filter)) := by
  obtain ⟨set, hPush, hHashes, hBlocks⟩ :=
    TableKeys.pushKeys_inBlocks options.blockKeys hCount
  have hTrain : set.train (options.totalBlocks keys.length) options.config = .ok filter := by
    rw [TableKeys.train, hHashes, hBlocks]
    exact h.train_rankBlocks hCount
  rw [act_of_accepted hSettings hKeys hPush]
  simp only [hTrain, h.stored, Except.mapError, bind, Except.bind, pure, Except.pure]

theorem sizeBytes_eq (h : options.Makes keys filter block) : filter.sizeBytes =
    options.config.bitArrayBytes keys.length + options.config.kind.trailerBytes := by
  obtain ⟨_, _, hTrain⟩ := h.trained
  rw [TableFilter.sizeBytes_of_train hTrain, List.length_map]

theorem sizeBytes_lt (h : options.Makes keys filter block)
    (hSize : options.config.bitArrayBytes keys.length + LearnedIndex.trailerBytes < UInt32.size) :
    filter.sizeBytes < UInt32.size := by
  rw [h.sizeBytes_eq]
  exact Nat.lt_of_le_of_lt (Nat.add_le_add_left (FilterKind.trailerBytes_le _) _) hSize

theorem mayContain {line : Bytes} (h : options.Makes keys filter block) (hMem : line ∈ keys) :
    filter.mayContain (KeyHash.ofBytes line) = true := by
  obtain ⟨_, _, hTrain⟩ := h.trained
  exact TableFilter.mayContain_of_train hTrain (List.mem_map_of_mem hMem)

/-- A build writes its block and prints the figures of its filter. -/
theorem run_eq (h : options.Makes keys filter block) (hSettings : options.config.check = .ok ())
    (hKeys : KeyFile.keys? contents = some keys) (hCount : keys.length < UInt32.size)
    (hRead : directory.read options.input = .ok contents)
    (hWrite : directory.write options.output block = .ok after) :
    (Command.build options).run directory = (options.report keys filter, after) := by
  have hAct := h.act_eq hSettings hKeys hCount
  simp only [Command.run, Command.source, Command.act, hRead, hAct, hWrite, outcome]

end BuildOptions.Makes

/-- Fewer keys and a smaller bit array than 32-bit numbers can tell are all that a build asks for. -/
theorem BuildOptions.exists_makes (hSettings : options.config.check = .ok ())
    (hCount : keys.length < UInt32.size)
    (hSize : options.config.bitArrayBytes keys.length < UInt32.size) :
    ∃ filter block, options.Makes keys filter block := by
  have hPositive : 0 < options.blockKeys := Nat.le_max_right ..
  have hTrainable : Trainable (keys.map KeyHash.ofBytes)
      (rankBlocks options.blockKeys keys.length) (options.totalBlocks keys.length)
      options.config :=
    ⟨hSettings, by simp, rankBlocks_inTable hCount hPositive⟩
  obtain ⟨filter, hTrain⟩ := TableFilter.exists_train_iff.mpr hTrainable
  have hBloom : filter.bloomBytes < UInt32.size := by
    rwa [TableFilter.bloomBytes_of_train hTrain, List.length_map]
  exact ⟨filter, _, ⟨_, map_toNat_rankBlocks hCount, hTrain⟩,
    FooterBlock.encode_eq_ok_iff.mpr ⟨hBloom, rfl⟩⟩

/-! ## Queries -/

end CommandLine

end BlockFilter
