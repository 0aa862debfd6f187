import BlockFilter.Bloom

/-! The bit array of a Bloom filter as a set of positions. Insertion sets the bits at the positions
of a hash and leaves all others as they are, so after any insertions a bit is set exactly when it
was set before or is a position of an inserted hash. In particular no insertion takes a hash out
again. -/

namespace BlockFilter

/-- A count past the 32-bit range is kept as the last number of the range. -/
theorem toNat_ofNatClamp (n : Nat) :
    (UInt32.ofNatClamp n).toNat = min n (UInt32.size - 1) := by
  by_cases hFits : n < UInt32.size
  · rw [UInt32.toNat_ofNatClamp_of_lt hFits]
    omega
  · rw [UInt32.toNat_ofNatClamp_of_le (Nat.le_of_not_lt hFits)]
    omega

namespace ProbeSequence

/-- Every position of a walk lies below the number of bits, where there are bits. -/
theorem lt_of_mem_walk {step numBits hash position : UInt32} {count : Nat} (hBits : numBits ≠ 0)
    (h : position ∈ walk step numBits count hash) : position < numBits := by
  induction count generalizing hash with
  | zero => cases h
  | succ count ih =>
      rw [walk, List.mem_cons] at h
      rcases h with rfl | h
      · exact UInt32.mod_lt hash (UInt32.pos_iff_ne_zero.mpr hBits)
      · exact ih h

/-- Every position of a sequence lies below the number of bits. Without bits there is none. -/
theorem lt_of_mem_positions {hash : KeyHash} {probes : UInt8} {numBits position : UInt32}
    (h : position ∈ positions hash probes numBits) : position < numBits := by
  by_cases hBits : numBits = 0
  · simp [positions, start, toList, hBits, walk] at h
  · exact lt_of_mem_walk hBits h

end ProbeSequence

namespace Bloom

/-! ## One bit -/

/-- Two masks share a bit exactly when their positions agree within the byte. -/
theorem mask_and_mask (p q : UInt32) : mask p &&& mask q ≠ 0 ↔ p % 8 = q % 8 := by
  have hMasks : ∀ r s : Fin 8,
      (1 <<< (UInt32.ofNat r).toUInt8 &&& 1 <<< (UInt32.ofNat s).toUInt8 : UInt8) ≠ 0 ↔ r = s := by
    decide
  have hp : (p % 8).toNat < 8 := UInt32.lt_iff_toNat_lt.mp (UInt32.mod_lt p (by decide))
  have hq : (q % 8).toNat < 8 := UInt32.lt_iff_toNat_lt.mp (UInt32.mod_lt q (by decide))
  have h := hMasks ⟨_, hp⟩ ⟨_, hq⟩
  simpa only [UInt32.ofNat_toNat, Fin.mk.injEq, UInt32.toNat_inj, mask] using h

/-- Putting a mask into a byte sets the bit of the mask and no other. -/
theorem or_mask_and_mask (byte : UInt8) (p q : UInt32) :
    ((byte ||| mask p) &&& mask q != 0) = (byte &&& mask q != 0 || p % 8 == q % 8) := by
  have hDistrib : (byte ||| mask p) &&& mask q = byte &&& mask q ||| mask p &&& mask q := by
    rw [← UInt8.toBitVec_inj]
    exact BitVec.and_or_distrib_right
  have hShared := mask_and_mask p q
  rw [hDistrib, Bool.eq_iff_iff]
  simp only [bne_iff_ne, ne_eq, UInt8.or_eq_zero_iff, Bool.or_eq_true, beq_iff_eq] at hShared ⊢
  rw [← hShared]
  exact Decidable.not_and_iff_not_or_not

/-- A position is told by its byte and its bit within the byte. -/
theorem position_ext {p q : UInt32} (hByte : (p / 8).toNat = (q / 8).toNat)
    (hBit : p % 8 = q % 8) : p = q := by
  apply UInt32.toNat.inj
  have hBit' : (p % 8).toNat = (q % 8).toNat := congrArg UInt32.toNat hBit
  simp only [UInt32.toNat_div, UInt32.toNat_mod, UInt32.reduceToNat] at hByte hBit'
  omega

/-- Setting the bit at `p` changes no other bit. Past the end of the array there is none to set. -/
theorem bit?_setBit (bloom : Bloom) (p q : UInt32) :
    (bloom.setBit p).bit? q =
      if p = q then (bloom.bit? q).map fun _ => true else bloom.bit? q := by
  simp only [bit?, setBit, Array.getElem?_modify]
  by_cases hByte : (p / 8).toNat = (q / 8).toNat
  · rw [if_pos hByte, Option.map_map]
    by_cases hPosition : p = q
    · subst hPosition
      rw [if_pos rfl, Option.map_map]
      congr 1
      funext byte
      simp only [Function.comp_apply, or_mask_and_mask, beq_self_eq_true, Bool.or_true]
    · have hBit : p % 8 ≠ q % 8 := fun h => hPosition (position_ext hByte h)
      rw [if_neg hPosition]
      congr 1
      funext byte
      simp only [Function.comp_apply, or_mask_and_mask, beq_eq_false_iff_ne.mpr hBit, Bool.or_false]
  · have hPosition : p ≠ q := fun h => hByte (h ▸ rfl)
    rw [if_neg hByte, if_neg hPosition]

/-- Every addressable position lies in the array. -/
theorem exists_bit?_of_lt {bloom : Bloom} {position : UInt32} (h : position < bloom.numBits) :
    ∃ bit, bloom.bit? position = some bit := by
  have hBits : bloom.numBits.toNat ≤ 8 * bloom.bits.size := by
    rw [numBits, toNat_ofNatClamp]
    omega
  have hByte : (position / 8).toNat < bloom.bits.size := by
    rw [UInt32.lt_iff_toNat_lt] at h
    simp only [UInt32.toNat_div, UInt32.reduceToNat]
    omega
  exact ⟨_, by rw [bit?, Array.getElem?_eq_getElem hByte, Option.map_some]⟩

/-! ## Insertion -/

@[simp] theorem positions_setBit (bloom : Bloom) (position : UInt32) :
    (bloom.setBit position).positions = bloom.positions := by
  funext hash
  simp [positions, numBits, setBit]

theorem bit?_foldl_setBit (bloom : Bloom) (positions : List UInt32) (q : UInt32) :
    (positions.foldl setBit bloom).bit? q =
      if q ∈ positions then (bloom.bit? q).map fun _ => true else bloom.bit? q := by
  induction positions generalizing bloom with
  | nil => rfl
  | cons p rest ih =>
      rw [List.foldl_cons, ih, bit?_setBit]
      by_cases hHead : p = q
      · subst hHead
        cases bloom.bit? p <;> simp
      · simp [hHead, Ne.symm hHead]

@[simp] theorem positions_insert (bloom : Bloom) (hash : KeyHash) :
    (bloom.insert hash).positions = bloom.positions := by
  have hFold : ∀ (positions : List UInt32) (bloom : Bloom),
      (positions.foldl setBit bloom).positions = bloom.positions := by
    intro positions
    induction positions with
    | nil => exact fun _ => rfl
    | cons p rest ih => exact fun bloom => by rw [List.foldl_cons, ih, positions_setBit]
  exact hFold _ bloom

@[simp] theorem sizeBytes_insert (bloom : Bloom) (hash : KeyHash) :
    (bloom.insert hash).sizeBytes = bloom.sizeBytes := by
  rw [insert]
  generalize bloom.positions hash = positions
  induction positions generalizing bloom with
  | nil => rfl
  | cons p rest ih => exact (ih (bloom.setBit p)).trans (sizeBytes_setBit bloom p)

/-- Inserting a hash sets the bits at its positions and no others. -/
theorem bit?_insert (bloom : Bloom) (hash : KeyHash) (q : UInt32) :
    (bloom.insert hash).bit? q =
      if q ∈ bloom.positions hash then some true else bloom.bit? q := by
  rw [insert, bit?_foldl_setBit]
  by_cases h : q ∈ bloom.positions hash
  · obtain ⟨bit, hBit⟩ := exists_bit?_of_lt (ProbeSequence.lt_of_mem_positions h)
    rw [if_pos h, if_pos h, hBit, Option.map_some]
  · rw [if_neg h, if_neg h]

@[simp] theorem positions_insertAll (bloom : Bloom) (hashes : List KeyHash) :
    (bloom.insertAll hashes).positions = bloom.positions := by
  induction hashes generalizing bloom with
  | nil => rfl
  | cons hash rest ih => exact (ih (bloom.insert hash)).trans (positions_insert bloom hash)

@[simp] theorem sizeBytes_insertAll (bloom : Bloom) (hashes : List KeyHash) :
    (bloom.insertAll hashes).sizeBytes = bloom.sizeBytes := by
  induction hashes generalizing bloom with
  | nil => rfl
  | cons hash rest ih => exact (ih (bloom.insert hash)).trans (sizeBytes_insert bloom hash)

theorem sizeBytes_cleared (size : Nat) (probes : UInt8) : (cleared size probes).sizeBytes = size :=
  Array.size_replicate

theorem sizeBytes_ofSize (hashes : List KeyHash) (size : Nat) :
    (ofSize hashes size).sizeBytes = max size minBloomBytes := by
  rw [ofSize, sizeBytes_insertAll, sizeBytes_cleared]

theorem sizeBytes_ofBudget (hashes : List KeyHash) (budget : Nat) :
    (ofBudget hashes budget).sizeBytes =
      ceilDiv (max (min (hashes.length * max budget 1) (UInt64.size - 1)) (8 * minBloomBytes)) 8 := by
  rw [ofBudget, sizeBytes_insertAll, sizeBytes_cleared]

/-- After any insertions a bit is set when it is a position of an inserted hash, and is as before
when it is not. -/
theorem bit?_insertAll (bloom : Bloom) (hashes : List KeyHash) (q : UInt32) :
    (bloom.insertAll hashes).bit? q =
      if ∃ hash ∈ hashes, q ∈ bloom.positions hash then some true else bloom.bit? q := by
  induction hashes generalizing bloom with
  | nil => simp [insertAll]
  | cons hash rest ih =>
      have hRest := ih (bloom.insert hash)
      rw [positions_insert, bit?_insert] at hRest
      rw [insertAll, List.foldl_cons, ← insertAll, hRest]
      by_cases hHead : q ∈ bloom.positions hash
      · simp [hHead]
      · simp [hHead]

/-! ## Membership -/

/-- A filter without bits has no positions to look at, so the bits alone decide. -/
theorem mayContain_iff (bloom : Bloom) (hash : KeyHash) :
    bloom.mayContain hash = true ↔
      ∀ position ∈ bloom.positions hash, bloom.bit? position = some true := by
  rw [mayContain, Bool.or_eq_true, List.all_eq_true]
  simp only [beq_iff_eq]
  refine ⟨fun h => h.elim (fun hEmpty position hPosition => ?_) id, Or.inr⟩
  obtain ⟨bit, hBit⟩ := exists_bit?_of_lt (ProbeSequence.lt_of_mem_positions hPosition)
  simp [bit?, Array.isEmpty_iff.mp hEmpty] at hBit

/-- No insertion before or after takes an inserted hash out, whatever the size of the array and the
number of probes. -/
theorem mayContain_insertAll (bloom : Bloom) {hashes : List KeyHash} {hash : KeyHash}
    (h : hash ∈ hashes) : (bloom.insertAll hashes).mayContain hash = true := by
  rw [mayContain_iff]
  intro position hPosition
  rw [positions_insertAll] at hPosition
  rw [bit?_insertAll, if_pos ⟨hash, h, hPosition⟩]

end Bloom

end BlockFilter
